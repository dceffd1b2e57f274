/-
Memnode.Replication.Futures — the hub's remote calls and the tables that
name them.

A call waits for a future under its request id, which is in `_pending`
until a reply arrives, and for a second one in `_pull_futures` if that
reply is chunked. Request ids of calls are never repeated, so an entry
under an id belongs to the one call with that id, in every reachable
state and whatever the peers send (`Linked`).

  §1 what a list of resolutions does to one call (`settle`);
  §2 which futures a message resolves (`handled_resolved`);
  §3 the tables (`Reachable.linked`);
  §4 what a step of one call changes (`Advanced`).
-/
import Memnode.Replication.Bounds

namespace Memnode.Replication

open Lib Blocks

variable {K : Type} [DecidableEq K] {I : Interpreter K}

/-! ## §1 Resolving -/

namespace Outgoing

/-- The resolutions of call `i`, one after the other. -/
def settle (i : Nat) : List (Nat × Resolution) → Outgoing → Outgoing
  | [], o => o
  | x :: rs, o => settle i rs (if x.1 = i then o.resolve x.2 else o)

theorem settle_append (i : Nat) (rs rs' : List (Nat × Resolution)) (o : Outgoing) :
    settle i (rs ++ rs') o = settle i rs' (settle i rs o) := by
  induction rs generalizing o with
  | nil => rfl
  | cons x rs ih => exact ih _

/-- Only the two futures change. -/
structure Same (o o' : Outgoing) : Prop where
  peer : o'.peer = o.peer
  reqId : o'.reqId = o.reqId
  timeout : o'.timeout = o.timeout
  ask : o'.ask = o.ask
  stand : o'.stand = o.stand

theorem Same.refl (o : Outgoing) : o.Same o := ⟨rfl, rfl, rfl, rfl, rfl⟩

theorem Same.trans {o o' o'' : Outgoing} (h : o.Same o') (h' : o'.Same o'') : o.Same o'' :=
  ⟨h'.peer.trans h.peer, h'.reqId.trans h.reqId, h'.timeout.trans h.timeout, h'.ask.trans h.ask,
    h'.stand.trans h.stand⟩

theorem same_resolve (o : Outgoing) (r : Resolution) : o.Same (o.resolve r) := by
  cases r <;> exact ⟨rfl, rfl, rfl, rfl, rfl⟩

variable {i : Nat} {rs : List (Nat × Resolution)}

theorem same_settle (o : Outgoing) (rs : List (Nat × Resolution)) : o.Same (settle i rs o) := by
  induction rs generalizing o with
  | nil => exact .refl o
  | cons x rs ih =>
    unfold settle
    split
    · exact (same_resolve o x.2).trans (ih _)
    · exact ih o

theorem settle_of_not_mem (o : Outgoing) (h : ∀ r, (i, r) ∉ rs) : settle i rs o = o := by
  induction rs with
  | nil => rfl
  | cons x rs ih =>
    have hx : x.1 ≠ i := by
      intro heq
      exact h x.2 (heq ▸ List.mem_cons_self ..)
    rw [settle, if_neg hx]
    exact ih (fun r hr => h r (List.mem_cons_of_mem _ hr))

/-- A future that is done stays as it is. -/
theorem settle_reply {o : Outgoing} {m : Message} (h : o.reply = some m) :
    (settle i rs o).reply = some m := by
  induction rs generalizing o with
  | nil => exact h
  | cons x rs ih =>
    refine ih ?_
    split
    · cases x.2 <;> simp [resolve, h]
    · exact h

theorem settle_pull {o : Outgoing} {res : Except RemoteFailure Bytes} (h : o.pull = some res) :
    (settle i rs o).pull = some res := by
  induction rs generalizing o with
  | nil => exact h
  | cons x rs ih =>
    refine ih ?_
    split
    · cases x.2 <;> simp [resolve, h]
    · exact h

theorem of_settle_reply {o : Outgoing} {m : Message} (h : (settle i rs o).reply = some m) :
    o.reply = some m ∨ (i, .reply m) ∈ rs := by
  induction rs generalizing o with
  | nil => exact Or.inl h
  | cons x rs ih =>
    obtain ⟨j, r⟩ := x
    rcases ih h with hm | hm
    · split at hm
      · rename_i hj
        subst hj
        cases r with
        | reply m' =>
          simp only [resolve, Option.or_eq_some_iff, Option.some.injEq] at hm
          rcases hm with hm | ⟨_, rfl⟩
          · exact Or.inl hm
          · exact Or.inr (List.mem_cons_self ..)
        | pulled data => exact Or.inl hm
        | pullFailed e => exact Or.inl hm
      · exact Or.inl hm
    · exact Or.inr (List.mem_cons_of_mem _ hm)

theorem of_settle_pull {o : Outgoing} {data : Bytes} (h : (settle i rs o).pull = some (.ok data)) :
    o.pull = some (.ok data) ∨ (i, .pulled data) ∈ rs := by
  induction rs generalizing o with
  | nil => exact Or.inl h
  | cons x rs ih =>
    obtain ⟨j, r⟩ := x
    rcases ih h with hm | hm
    · split at hm
      · rename_i hj
        subst hj
        cases r with
        | reply m' => exact Or.inl hm
        | pulled data' =>
          simp only [resolve, Option.or_eq_some_iff, Option.some.injEq, Except.ok.injEq] at hm
          rcases hm with hm | ⟨_, rfl⟩
          · exact Or.inl hm
          · exact Or.inr (List.mem_cons_self ..)
        | pullFailed e =>
          simp only [resolve, Option.or_eq_some_iff, Option.some.injEq, reduceCtorEq, and_false,
            or_false] at hm
          exact Or.inl hm
      · exact Or.inl hm
    · exact Or.inr (List.mem_cons_of_mem _ hm)

theorem settle_pull_of_replies {o : Outgoing} (h : ∀ r, (i, r) ∈ rs → ∃ m, r = .reply m) :
    (settle i rs o).pull = o.pull := by
  induction rs generalizing o with
  | nil => rfl
  | cons x rs ih =>
    obtain ⟨j, r⟩ := x
    rw [settle, ih (fun r hr => h r (List.mem_cons_of_mem _ hr))]
    split
    · rename_i hj
      subst hj
      obtain ⟨m, rfl⟩ := h r (List.mem_cons_self ..)
      rfl
    · rfl

/-- A reply is not lost. -/
theorem settle_replied {o : Outgoing} {m : Message} (h : (i, .reply m) ∈ rs) :
    ∃ m', (settle i rs o).reply = some m' := by
  induction rs generalizing o with
  | nil => cases h
  | cons x rs ih =>
    rcases List.mem_cons.mp h with rfl | hrest
    · rw [settle, if_pos rfl]
      cases hreply : o.reply with
      | none => exact ⟨m, settle_reply (by simp [resolve, hreply])⟩
      | some m' => exact ⟨m', settle_reply (by simp [resolve, hreply])⟩
    · exact ih hrest

end Outgoing

theorem Hub.getElem?_resolve (calls : List Outgoing) (rs : List (Nat × Resolution)) (i : Nat) :
    (Hub.resolve calls rs)[i]? = (calls[i]?).map (Outgoing.settle i rs) := by
  induction rs generalizing calls with
  | nil => cases h : calls[i]? <;> simp [Hub.resolve, Outgoing.settle, h]
  | cons x rs ih =>
    have hstep : Hub.resolve calls (x :: rs)
        = Hub.resolve (calls.modify x.1 (fun o => o.resolve x.2)) rs := rfl
    rw [hstep, ih, List.getElem?_modify]
    cases calls[i]? with
    | none => rfl
    | some o => rfl

/-! ## §2 The futures a message resolves -/

/-- The final chunk of a buffer, within its declared size. -/
structure Completes (I : Interpreter K) (c : Coordinator K) (msg : Message) (k : K) (b : Buffer)
    (chunk : Bytes) : Prop extends ChunkFor I c msg k b where
  payload : chunkOf msg = some chunk
  within : (b.add chunk).overrun I = some false
  final : isFinal msg = true

/-- The message becomes the reply of the pending request with future
`f`: it answers it, and `_gc_buffers` did not raise if it was run. -/
structure Replies (I : Interpreter K) (now : Rat) (c : Coordinator K) (msg : Message) (k : K)
    (f : Nat) : Prop extends Answers I c msg k f where
  collected : msg.type = .blockData ∧ isChunked msg = true → (gcBuffers I now c).2.2 = true

/-- The buffers a message can end. -/
inductive Touches (I : Interpreter K) (now : Rat) (c : Coordinator K) (msg : Message) (k : K)
    (b : Buffer) : Prop where
  | chunk (hf : ChunkFor I c msg k b)
  | ends (he : Ends I c msg k b)
  | stale (hc : Collects I c msg) (he : (k, b) ∈ dropped I (staleBuffers now c))

section Resolved

variable {now : Rat} {c : Coordinator K} {peer : String} {msg : Message}

theorem Touches.buffer {k : K} {b : Buffer} (h : Touches I now c msg k b) :
    c.buffers.get k = some b := by
  cases h with
  | chunk hf => exact hf.buffer
  | ends he => exact he.buffer
  | stale _ he =>
    exact (Dict.get_eq_some_iff _ _ _).mpr (List.mem_of_mem_filter (mem_dropped he))

/-- Where a resolution comes from. -/
def Resolution.From (I : Interpreter K) (now : Rat) (c : Coordinator K) (msg : Message) (f : Nat) :
    Resolution → Prop
  | .reply m => m = msg ∧ ∃ k, Replies I now c msg k f
  | .pulled data =>
      ∃ k b chunk, Completes I c msg k b chunk ∧ b.mode = .pull f ∧ data = (b.add chunk).assemble
  | .pullFailed _ => ∃ k b, Touches I now c msg k b ∧ b.mode = .pull f

omit [DecidableEq K] in
theorem Buffer.mem_fail {b : Buffer} {e : RemoteFailure} {x : Nat × Resolution}
    (hx : x ∈ b.fail e) : x.2 = .pullFailed e ∧ b.mode = .pull x.1 := by
  unfold Buffer.fail at hx
  split at hx
  · cases hx
  · rename_i f hmode
    rw [List.mem_singleton.mp hx]
    exact ⟨rfl, hmode⟩

theorem Touches.resolution {k : K} {b : Buffer} {e : RemoteFailure} {x : Nat × Resolution}
    (h : Touches I now c msg k b) (hx : x ∈ b.fail e) : x.2.From I now c msg x.1 := by
  obtain ⟨he, hmode⟩ := Buffer.mem_fail hx
  rw [he]
  exact ⟨k, b, h, hmode⟩

theorem collected_from (hc : Collects I c msg) {c' : Coordinator K}
    {rs : List (Nat × Resolution)} {ok : Bool} (hgc : gcBuffers I now c = (c', rs, ok))
    {x : Nat × Resolution} (hx : x ∈ rs) : x.2.From I now c msg x.1 := by
  obtain ⟨e, he, hfail⟩ := (gcBuffers_collected hgc).resolved x hx
  exact Touches.resolution (.stale hc he) hfail

theorem collected_fails {c' : Coordinator K} {rs : List (Nat × Resolution)} {ok : Bool}
    (hgc : gcBuffers I now c = (c', rs, ok)) : ∀ x ∈ rs, ∃ e, x.2 = .pullFailed e := by
  intro x hx
  obtain ⟨e, _, hfail⟩ := (gcBuffers_collected hgc).resolved x hx
  exact ⟨_, (Buffer.mem_fail hfail).1⟩

/-- A message resolves the future of the request it answers, and futures
of buffers. -/
theorem handled_resolved {x : Nat × Resolution}
    (hx : x ∈ (handleMessage I now c peer msg).resolved) : x.2.From I now c msg x.1 := by
  generalize hh : handleMessage I now c peer msg = h at hx
  have heffect : Effect I now c peer msg h := hh ▸ handleMessage_effect I now c peer msg
  cases heffect with
  | quiet next => cases hx
  | collected hc hgc => exact collected_from hc hgc hx
  | answered ha hplain =>
    rw [List.mem_singleton.mp hx]
    exact ⟨rfl, _, ha, fun hheader => absurd hheader hplain⟩
  | openedPull hheader hgc =>
    rcases List.mem_append.mp hx with hx | hx
    · exact collected_from (Or.inl ⟨_, _, hheader⟩) hgc hx
    · rw [List.mem_singleton.mp hx]
      exact ⟨rfl, _, hheader.toAnswers, fun _ => by rw [hgc]⟩
  | openedPush hheader hgc => exact collected_from (Or.inr ⟨_, hheader⟩) hgc hx
  | ended he =>
    simp only at hx
    split at hx
    · exact Touches.resolution (.ends he) hx
    · cases hx
  | extended => cases hx
  | overran hf =>
    unfold afterOverrun at hx
    split at hx
    · split at hx
      · cases hx
      · rename_i f hmode
        rw [List.mem_singleton.mp hx]
        exact ⟨_, _, .chunk hf, hmode⟩
    · cases hx
  | completed hf hchunk hover hfinal =>
    unfold completeTransfer at hx
    split at hx
    · rename_i f hmode
      rw [List.mem_singleton.mp hx]
      exact ⟨_, _, _, ⟨hf, hchunk, hover, hfinal⟩, hmode, rfl⟩
    · split at hx <;> cases hx

end Resolved

/-! ## §3 The tables -/

/-- The same call at a later time. -/
structure Outgoing.Later (o o' : Outgoing) : Prop where
  peer : o'.peer = o.peer
  reqId : o'.reqId = o.reqId
  ask : o'.ask = o.ask
  reply : o.ask ≠ .free → ∀ m, o.reply = some m → o'.reply = some m

theorem Outgoing.Kept.later {o o' : Outgoing} (h : o.Kept o') : o.Later o' where
  peer := h.peer
  reqId := h.reqId
  ask := h.ask
  reply := by
    intro hask m hm
    rcases h.reply with heq | ⟨hfree, _⟩
    · rw [heq, hm]
    · exact absurd hfree hask

theorem Outgoing.settle_later (i : Nat) (rs : List (Nat × Resolution)) (o : Outgoing) :
    o.Later (settle i rs o) where
  peer := (o.same_settle rs).peer
  reqId := (o.same_settle rs).reqId
  ask := (o.same_settle rs).ask
  reply := fun _ _ hm => settle_reply hm

namespace Hub

variable {hub hub' : Hub K} {e : Event K}

theorem calls_receive (hub : Hub K) (peer : String) (msg : Message) (now : Rat) (i : Nat) :
    (hub.receive I peer msg now).calls[i]? = (hub.calls[i]?).map
      (Outgoing.settle i (handleMessage I now hub.coordinator peer msg).resolved) :=
  getElem?_resolve _ _ i

theorem Move.later (h : hub.Move I e hub') {i : Nat} {o : Outgoing} (ho : hub.calls[i]? = some o) :
    ∃ o', hub'.calls[i]? = some o' ∧ o.Later o' := by
  rcases h.quiet with ⟨peer, msg, now, _, rfl⟩ | hquiet
  · exact ⟨_, by rw [calls_receive, ho]; rfl, o.settle_later i _⟩
  · obtain ⟨o', ho', hlater⟩ := hquiet.calls ho
    exact ⟨o', ho', hlater.later⟩

theorem of_set {calls : List Outgoing} {i j : Nat} {o x : Outgoing}
    (h : (calls.set i x)[j]? = some o) : (j = i ∧ o = x) ∨ (j ≠ i ∧ calls[j]? = some o) := by
  by_cases hij : i = j
  · subst hij
    obtain ⟨hlt, heq⟩ := List.getElem?_eq_some_iff.mp h
    rw [List.getElem_set_self] at heq
    exact Or.inl ⟨rfl, heq.symm⟩
  · rw [List.getElem?_set_ne hij] at h
    exact Or.inr ⟨Ne.symm hij, h⟩

/-- A call was there before, or it has just started. -/
theorem Move.earlier (h : hub.Move I e hub') {i : Nat} {o' : Outgoing}
    (ho' : hub'.calls[i]? = some o') :
    (∃ o, hub.calls[i]? = some o ∧ o.Later o') ∨
      (i = hub.calls.length ∧ (∀ o ∈ hub.calls, o.reqId ≠ o'.reqId) ∧ o'.reply = none ∧
        o'.pull = none ∧ o'.stand = .sending ∧
        ∃ timeout, e = .call o'.peer o'.ask o'.reqId timeout) := by
  by_cases hlt : i < hub.calls.length
  · obtain ⟨x, hx, hlater⟩ := h.later (List.getElem?_eq_getElem hlt)
    rw [ho'] at hx
    obtain rfl := Option.some.inj hx
    exact Or.inl ⟨_, List.getElem?_eq_getElem hlt, hlater⟩
  · right
    have hlt' : i < hub'.calls.length := (List.getElem?_eq_some_iff.mp ho').1
    cases h with
    | called hnew =>
      simp only [List.length_append, List.length_singleton] at hlt'
      have hi : i = hub.calls.length := by omega
      subst hi
      simp only [List.getElem?_append_right (Nat.le_refl _), Nat.sub_self,
        List.getElem?_cons_zero, Option.some.injEq] at ho'
      subst ho'
      exact ⟨rfl, hnew, rfl, rfl, rfl, _, rfl⟩
    | out =>
      unfold Hub.out at hlt'
      split at hlt'
      · simp at hlt'
        omega
      · simp at hlt'
        omega
    | pulling =>
      simp at hlt'
      omega
    | abandoned =>
      simp at hlt'
      omega
    | finished =>
      simp [finish] at hlt'
      omega
    | received =>
      rw [calls_receive] at ho'
      simp [List.getElem?_eq_none (Nat.le_of_not_lt hlt)] at ho'
    | _ => exact absurd hlt' hlt

/-- Where a call can be after an event. -/
theorem Move.stand (h : hub.Move I e hub') {i : Nat} {o' : Outgoing}
    (ho' : hub'.calls[i]? = some o') :
    (∃ o, hub.calls[i]? = some o ∧ o.Later o' ∧ o'.stand = o.stand) ∨
      o'.stand = .sending ∨ o'.stand = .awaitReply ∨
      (∃ o f, hub.calls[i]? = some o ∧ o' = { o with stand := .awaitPull f } ∧ o.ask = .load ∧
        hub.coordinator.pullFutures.get (I.strKey o.reqId) = some f) ∨
      ∃ o r, hub.calls[i]? = some o ∧ o' = { o with stand := .over r } ∧
        ∀ data, r = .result (.loaded (some data)) → hub.Loads o data := by
  rcases h.earlier ho' with ⟨o, ho, hlater⟩ | ⟨_, _, _, _, hsending, _⟩
  · have hsame : o' = o → ∃ o, hub.calls[i]? = some o ∧ o.Later o' ∧ o'.stand = o.stand := by
      intro heq
      exact ⟨o, ho, hlater, by rw [heq]⟩
    cases h with
    | called =>
      have hlt : i < hub.calls.length := (List.getElem?_eq_some_iff.mp ho).1
      rw [List.getElem?_append_left hlt, ho] at ho'
      exact Or.inl (hsame (Option.some.inj ho').symm)
    | @out j x hx =>
      unfold Hub.out at ho'
      split at ho'
      · rcases of_set ho' with ⟨_, rfl⟩ | ⟨_, hold⟩
        · exact Or.inr (Or.inr (Or.inl rfl))
        · exact Or.inl (hsame (Option.some.inj (hold.symm.trans ho)))
      · rcases of_set ho' with ⟨_, rfl⟩ | ⟨_, hold⟩
        · exact Or.inr (Or.inr (Or.inl rfl))
        · exact Or.inl (hsame (Option.some.inj (hold.symm.trans ho)))
    | @pulling j f x hx _ hask hf =>
      rcases of_set ho' with ⟨rfl, rfl⟩ | ⟨_, hold⟩
      · exact Or.inr (Or.inr (Or.inr (Or.inl ⟨x, f, hx, rfl, hask, hf⟩)))
      · exact Or.inl (hsame (Option.some.inj (hold.symm.trans ho)))
    | @finished _ j x _ hx r _ hdata =>
      rcases of_set ho' with ⟨rfl, rfl⟩ | ⟨_, hold⟩
      · exact Or.inr (Or.inr (Or.inr (Or.inr ⟨x, r, hx, rfl, hdata⟩)))
      · exact Or.inl (hsame (Option.some.inj (hold.symm.trans ho)))
    | @abandoned j x hx =>
      rcases of_set ho' with ⟨rfl, rfl⟩ | ⟨_, hold⟩
      · exact Or.inr (Or.inr (Or.inr (Or.inr ⟨x, .raised, hx, rfl, fun data hr => by cases hr⟩)))
      · exact Or.inl (hsame (Option.some.inj (hold.symm.trans ho)))
    | received =>
      rw [calls_receive, ho] at ho'
      obtain rfl := Option.some.inj ho'
      exact Or.inl ⟨o, ho, hlater, (o.same_settle _).stand⟩
    | _ => exact Or.inl (hsame (Option.some.inj (ho'.symm.trans ho)))
  · exact Or.inr (Or.inl hsending)

/-- Call `f` has the request id `k`. -/
def Named (I : Interpreter K) (hub : Hub K) (k : K) (f : Nat) : Prop :=
  ∃ o, hub.calls[f]? = some o ∧ I.strKey o.reqId = k

omit [DecidableEq K] in
theorem Named.unique {k k' : K} {f : Nat} (h : hub.Named I k f) (h' : hub.Named I k' f) :
    k = k' := by
  obtain ⟨o, ho, rfl⟩ := h
  obtain ⟨o', ho', rfl⟩ := h'
  rw [ho] at ho'
  rw [Option.some.inj ho']

theorem Named.move {k : K} {f : Nat} (h : hub.Named I k f) (hmove : hub.Move I e hub') :
    hub'.Named I k f := by
  obtain ⟨o, ho, hk⟩ := h
  obtain ⟨o', ho', hlater⟩ := hmove.later ho
  exact ⟨o', ho', by rw [hlater.reqId, hk]⟩

/-- An entry under a request id belongs to the call with that id, and a
call that is pending has no reply. -/
structure Linked (I : Interpreter K) (hub : Hub K) : Prop where
  distinct : ∀ {i j : Nat} {o o' : Outgoing}, hub.calls[i]? = some o → hub.calls[j]? = some o' →
    o.reqId = o'.reqId → i = j
  pending : ∀ {k f}, hub.coordinator.pending.get k = some f →
    hub.Named I k f ∧ ∀ o, hub.calls[f]? = some o → o.reply = none
  pullFutures : ∀ {k f}, hub.coordinator.pullFutures.get k = some f → hub.Named I k f
  buffers : ∀ {k b f}, hub.coordinator.buffers.get k = some b → b.mode = .pull f →
    hub.Named I k f

theorem Move.distinct (h : hub.Linked I) (hmove : hub.Move I e hub') {i j : Nat}
    {o o' : Outgoing} (hi : hub'.calls[i]? = some o) (hj : hub'.calls[j]? = some o')
    (heq : o.reqId = o'.reqId) : i = j := by
  rcases hmove.earlier hi with ⟨x, hx, hlater⟩ | ⟨hnew, hfresh, _⟩
  · rcases hmove.earlier hj with ⟨y, hy, hlater'⟩ | ⟨hnew', hfresh', _⟩
    · exact h.distinct hx hy (by rw [← hlater.reqId, ← hlater'.reqId, heq])
    · exact absurd (hlater.reqId.symm.trans heq) (hfresh' x (List.mem_of_getElem? hx))
  · rcases hmove.earlier hj with ⟨y, hy, hlater'⟩ | ⟨hnew', _⟩
    · exact absurd (hlater'.reqId.symm.trans heq.symm) (hfresh y (List.mem_of_getElem? hy))
    · rw [hnew, hnew']

end Hub

section Tables

variable {now : Rat} {c : Coordinator K} {peer : String} {msg : Message}

/-- A message takes the request it answers out of the table, and is the
reply of no other. -/
theorem handled_pending (I : Interpreter K) (now : Rat) (c : Coordinator K) (peer : String)
    (msg : Message) :
    ((handleMessage I now c peer msg).coordinator.pending = c.pending ∧
      ∀ f m, (f, .reply m) ∉ (handleMessage I now c peer msg).resolved) ∨
    ∃ k f, Replies I now c msg k f ∧
      (handleMessage I now c peer msg).coordinator.pending = c.pending.erase k ∧
      (f, .reply msg) ∈ (handleMessage I now c peer msg).resolved := by
  have hno : ∀ {l : List (Nat × Resolution)}, (∀ x ∈ l, ∃ e, x.2 = .pullFailed e) →
      ∀ f m, (f, .reply m) ∉ l := by
    intro l hl f m hmem
    obtain ⟨e, he⟩ := hl _ hmem
    cases he
  generalize hh : handleMessage I now c peer msg = h
  have heffect : Effect I now c peer msg h := hh ▸ handleMessage_effect I now c peer msg
  cases heffect with
  | quiet next => exact Or.inl ⟨rfl, by simp⟩
  | collected _ hgc =>
    exact Or.inl ⟨(gcBuffers_collected hgc).pending, hno (collected_fails hgc)⟩
  | answered ha hplain =>
    exact Or.inr ⟨_, _, ⟨ha, fun hheader => absurd hheader hplain⟩, rfl, by simp⟩
  | openedPull hheader hgc =>
    refine Or.inr ⟨_, _, ⟨hheader.toAnswers, fun _ => by rw [hgc]⟩, ?_, by simp⟩
    simp [(gcBuffers_collected hgc).pending]
  | openedPush _ hgc =>
    exact Or.inl ⟨(gcBuffers_collected hgc).pending, hno (collected_fails hgc)⟩
  | ended =>
    refine Or.inl ⟨rfl, hno ?_⟩
    intro x hx
    split at hx
    · exact ⟨_, (Buffer.mem_fail hx).1⟩
    · cases hx
  | extended => exact Or.inl ⟨rfl, by simp [Handled.ended]⟩
  | overran =>
    rw [afterOverrun_coordinator]
    refine Or.inl ⟨rfl, hno ?_⟩
    intro x hx
    unfold afterOverrun at hx
    split at hx
    · split at hx
      · cases hx
      · exact ⟨_, by rw [List.mem_singleton.mp hx]⟩
    · cases hx
  | completed =>
    rw [completeTransfer_coordinator]
    refine Or.inl ⟨rfl, ?_⟩
    intro f m hmem
    unfold completeTransfer at hmem
    split at hmem
    · simp at hmem
    · split at hmem <;> cases hmem

theorem handled_pullFutures {k : K} {f : Nat}
    (hf : (handleMessage I now c peer msg).coordinator.pullFutures.get k = some f) :
    c.pullFutures.get k = some f ∨ OpensPull I now c msg k f := by
  generalize hh : handleMessage I now c peer msg = h at hf
  have heffect : Effect I now c peer msg h := hh ▸ handleMessage_effect I now c peer msg
  cases heffect with
  | quiet next => exact Or.inl hf
  | collected _ hgc =>
    rw [(gcBuffers_collected hgc).pullFutures] at hf
    exact Or.inl hf
  | answered => exact Or.inl hf
  | openedPull hheader hgc =>
    simp only [Dict.get_set, (gcBuffers_collected hgc).pullFutures] at hf
    split at hf
    · rename_i hk
      rw [hk, ← Option.some.inj hf]
      exact Or.inr ⟨hheader, by rw [hgc]⟩
    · exact Or.inl hf
  | openedPush _ hgc =>
    simp only [(gcBuffers_collected hgc).pullFutures] at hf
    exact Or.inl hf
  | ended => exact Or.inl hf
  | extended => exact Or.inl hf
  | overran =>
    rw [afterOverrun_coordinator] at hf
    exact Or.inl hf
  | completed =>
    rw [completeTransfer_coordinator] at hf
    exact Or.inl hf

end Tables

namespace Hub

variable {hub hub' : Hub K} {e : Event K}

/-- The reply of a call that is still pending after a message. -/
theorem Linked.pending_receive (h : hub.Linked I) {peer : String} {msg : Message} {now : Rat}
    {k : K} {f : Nat}
    (hf : (hub.receive I peer msg now).coordinator.pending.get k = some f) :
    hub.Named I k f ∧ ∀ o, (hub.receive I peer msg now).calls[f]? = some o → o.reply = none := by
  have hold : hub.coordinator.pending.get k = some f ∧
      ∀ m, (f, .reply m) ∉ (handleMessage I now hub.coordinator peer msg).resolved := by
    rcases handled_pending I now hub.coordinator peer msg with
      ⟨heq, hno⟩ | ⟨k', f', ha, heq, hreply⟩
    · exact ⟨by rw [← heq]; exact hf, hno f⟩
    · have hget : (hub.coordinator.pending.erase k').get k = some f := by
        rw [← heq]
        exact hf
      rw [Dict.get_erase] at hget
      split at hget
      · cases hget
      · rename_i hk
        refine ⟨hget, ?_⟩
        intro m hm
        obtain ⟨_, k'', ha'⟩ := handled_resolved hm
        -- a message has one request id, so it answers one request
        have hkey : k'' = k' := Option.some.inj (ha'.key.symm.trans ha.key)
        have hsame := (h.pending hget).1.unique (h.pending ha'.pending).1
        exact hk (hsame.trans hkey)
  obtain ⟨hnamed, hnone⟩ := h.pending hold.1
  refine ⟨hnamed, ?_⟩
  intro o ho
  rw [calls_receive] at ho
  obtain ⟨x, hx, rfl⟩ := Option.map_eq_some_iff.mp ho
  cases hreply : (Outgoing.settle f (handleMessage I now hub.coordinator peer msg).resolved x).reply
    with
  | none => rfl
  | some m =>
    rcases Outgoing.of_settle_reply hreply with hm | hm
    · rw [hnone x hx] at hm
      cases hm
    · exact absurd hm (hold.2 m)

theorem cleanUp_pending (c : Coordinator K) (k : K) (ask : Ask) :
    (cleanUp c k ask).pending = c.pending.erase k := by
  cases ask <;> rfl

theorem Linked.pending_move (h : hub.Linked I) (hmove : hub.Move I e hub') {k : K} {f : Nat}
    (hf : hub'.coordinator.pending.get k = some f) :
    hub'.Named I k f ∧ ∀ o, hub'.calls[f]? = some o → o.reply = none := by
  -- a call that is written back with the reply it had
  have hback : ∀ {i : Nat} {o x : Outgoing}, hub.calls[i]? = some o → x.reply = o.reply →
      hub.coordinator.pending.get k = some f →
      ∀ o', (hub.calls.set i x)[f]? = some o' → o'.reply = none := by
    intro i o x hi hx hold o' ho'
    rcases of_set ho' with ⟨rfl, rfl⟩ | ⟨_, ho'⟩
    · rw [hx]
      exact (h.pending hold).2 o hi
    · exact (h.pending hold).2 o' ho'
  have hkept : hub.coordinator.pending.get k = some f → hub'.Named I k f :=
    fun hold => (h.pending hold).1.move hmove
  cases hmove with
  | called hnew =>
    simp only [Dict.get_set] at hf
    split at hf
    · rename_i hk
      obtain rfl := Option.some.inj hf
      refine ⟨⟨_, List.getElem?_concat_length, hk.symm⟩, ?_⟩
      intro o ho
      simp only [List.getElem?_concat_length, Option.some.injEq] at ho
      rw [← ho]
    · refine ⟨hkept hf, ?_⟩
      intro o ho
      have hlt : f < hub.calls.length := by
        obtain ⟨x, hx, _⟩ := (h.pending hf).1
        exact (List.getElem?_eq_some_iff.mp hx).1
      simp only [List.getElem?_append_left hlt] at ho
      exact (h.pending hf).2 o ho
  | @out i x hx =>
    by_cases hfree : x.ask = .free ∧ hub.coordinator.pending.get (I.strKey x.reqId) = none
    · simp only [Hub.out, if_pos hfree, Dict.get_set] at hf hkept ⊢
      have hlt : i < hub.calls.length := (List.getElem?_eq_some_iff.mp hx).1
      split at hf
      · rename_i hk
        obtain rfl := Option.some.inj hf
        refine ⟨⟨_, List.getElem?_set_self hlt, hk.symm⟩, ?_⟩
        intro o ho
        rcases of_set ho with ⟨_, rfl⟩ | ⟨hne, _⟩
        · rfl
        · exact absurd rfl hne
      · refine ⟨hkept hf, ?_⟩
        intro o ho
        rcases of_set ho with ⟨_, rfl⟩ | ⟨_, ho⟩
        · rfl
        · exact (h.pending hf).2 o ho
    · simp only [Hub.out, if_neg hfree] at hf hkept ⊢
      exact ⟨hkept hf, hback hx rfl hf⟩
  | pulling hx => exact ⟨hkept hf, hback hx rfl hf⟩
  | abandoned hx => exact ⟨hkept hf, hback hx rfl hf⟩
  | finished _ hx =>
    have hold : hub.coordinator.pending.get k = some f := by
      simp only [finish, cleanUp_pending, Dict.get_erase] at hf
      split at hf
      · cases hf
      · exact hf
    exact ⟨hkept hold, hback hx rfl hold⟩
  | received => exact ⟨(h.pending_receive hf).1.move (.received ‹_› _ _), (h.pending_receive hf).2⟩
  | _ => exact ⟨hkept hf, fun o ho => (h.pending hf).2 o ho⟩

theorem Linked.pullFutures_move (h : hub.Linked I) (hmove : hub.Move I e hub') {k : K} {f : Nat}
    (hf : hub'.coordinator.pullFutures.get k = some f) : hub.Named I k f := by
  cases hmove with
  | out =>
    refine h.pullFutures ?_
    unfold Hub.out at hf
    split at hf <;> exact hf
  | @finished _ _ o =>
    refine h.pullFutures ?_
    unfold finish cleanUp at hf
    split at hf
    · simp only [Dict.get_erase] at hf
      split at hf
      · cases hf
      · exact hf
    · exact hf
  | received =>
    rcases handled_pullFutures hf with hold | hheader
    · exact h.pullFutures hold
    · exact (h.pending hheader.pending).1
  | _ => exact h.pullFutures hf

theorem Linked.buffers_move (h : hub.Linked I) (hmove : hub.Move I e hub') :
    ∀ k b, hub'.coordinator.buffers.get k = some b → ∀ f, b.mode = .pull f → hub.Named I k f := by
  rcases hmove.quiet with ⟨peer, msg, now, rfl, rfl⟩ | hquiet
  · refine handled_buffers (fun k b hb f hmode => h.buffers hb hmode) ?_ ?_ ?_
    · intro k f hopens f' hmode
      cases hmode
      exact (h.pending hopens.pending).1
    · intro k _ f hmode
      cases hmode
    · intro k b chunk _ _ _ hb f hmode
      exact hb f hmode
  · intro k b hb f hmode
    exact h.buffers (hquiet.buffer_get hb) hmode

theorem Linked.move (h : hub.Linked I) (hmove : hub.Move I e hub') : hub'.Linked I where
  distinct := hmove.distinct h
  pending := h.pending_move hmove
  pullFutures := fun hf => (h.pullFutures_move hmove hf).move hmove
  buffers := fun hb hmode => (h.buffers_move hmove _ _ hb _ hmode).move hmove

theorem Reachable.linked {ok : Hub K → Event K → Prop} (h : Reachable I ok hub) :
    hub.Linked I := by
  refine Reachable.invariant (I := I) (P := Hub.Linked I) ?_ ?_ h
  · intro hub hfresh
    refine ⟨?_, ?_, ?_, ?_⟩
    · intro i j o o' hi
      simp [hfresh.calls] at hi
    · intro k f hf
      simp [hfresh.coordinator, Coordinator.init] at hf
    · intro k f hf
      simp [hfresh.coordinator, Coordinator.init] at hf
    · intro k b f hb
      simp [hfresh.coordinator, Coordinator.init] at hb
  · intro hub hub' e ih _ hmove
    exact ih.move hmove

/-- A call waits for its own collector, and only `load_remote` does. -/
def Waiting (hub : Hub K) : Prop :=
  ∀ {i : Nat} {o : Outgoing} {f : Nat}, hub.calls[i]? = some o → o.stand = .awaitPull f →
    f = i ∧ o.ask = .load

theorem Waiting.move (h : hub.Waiting) (hlinked : hub.Linked I) (hmove : hub.Move I e hub') :
    hub'.Waiting := by
  intro i o' f ho' hstand
  rcases hmove.stand ho' with ⟨o, ho, hlater, heq⟩ | heq | heq | ⟨o, f', ho, rfl, hask, hf⟩ |
    ⟨o, r, ho, rfl, _⟩
  · rw [heq] at hstand
    rw [hlater.ask]
    exact h ho hstand
  · rw [heq] at hstand
    cases hstand
  · rw [heq] at hstand
    cases hstand
  · cases hstand
    obtain ⟨x, hx, hkey⟩ := hlinked.pullFutures hf
    exact ⟨hlinked.distinct hx ho (I.strKey_injective hkey), hask⟩
  · cases hstand

theorem Reachable.waiting {ok : Hub K → Event K → Prop} (h : Reachable I ok hub) :
    hub.Waiting := by
  induction h with
  | start hfresh =>
    intro i o f ho
    simp [hfresh.calls] at ho
  | step hreach _ hstep ih => exact ih.move hreach.linked (step_moves hstep)

/-! ## §4 One call -/

/-- Only call `i` and what is under its id have changed. -/
structure Advanced (I : Interpreter K) (hub : Hub K) (i : Nat) (o : Outgoing) (hub' : Hub K) : Prop where
  calls : ∃ o', hub'.calls = hub.calls.set i o' ∧ o'.peer = o.peer
  pending : ∀ k, k ≠ I.strKey o.reqId →
    hub'.coordinator.pending.get k = hub.coordinator.pending.get k
  pullFutures : ∀ k, k ≠ I.strKey o.reqId →
    hub'.coordinator.pullFutures.get k = hub.coordinator.pullFutures.get k
  buffers : ∀ k, k ≠ I.strKey o.reqId →
    hub'.coordinator.buffers.get k = hub.coordinator.buffers.get k
  fewer : ∀ k b, hub'.coordinator.buffers.get k = some b → hub.coordinator.buffers.get k = some b
  handlers : hub'.handlers = hub.handlers
  declared : hub'.declared = hub.declared
  commits : hub'.commits = hub.commits

theorem advanced_finish (i : Nat) (o : Outgoing) (r : Returned) :
    hub.Advanced I i o (hub.finish I i o r) := by
  have hother : ∀ {ν : Type} {d : Dict K ν} {k}, k ≠ I.strKey o.reqId →
      (d.erase (I.strKey o.reqId)).get k = d.get k := by
    intro ν d k hk
    rw [Dict.get_erase, if_neg hk]
  have hfewer : ∀ k b, (hub.coordinator.buffers.erase (I.strKey o.reqId)).get k = some b →
      hub.coordinator.buffers.get k = some b := by
    intro k b hb
    rw [Dict.get_erase] at hb
    split at hb
    · cases hb
    · exact hb
  obtain ⟨peer, reqId, timeout, ask, reply, pull, stand⟩ := o
  cases ask with
  | load =>
    exact ⟨⟨_, rfl, rfl⟩, fun _ => hother, fun _ => hother, fun _ => hother, hfewer, rfl, rfl, rfl⟩
  | _ =>
    exact ⟨⟨_, rfl, rfl⟩, fun _ => hother, fun _ _ => rfl, fun _ _ => rfl, fun _ _ h => h, rfl, rfl, rfl⟩

theorem advanced_stand (i : Nat) (o : Outgoing) (stand : Stand) :
    hub.Advanced I i o { hub with calls := hub.calls.set i { o with stand := stand } } :=
  ⟨⟨_, rfl, rfl⟩, fun _ _ => rfl, fun _ _ => rfl, fun _ _ => rfl, fun _ _ h => h, rfl, rfl, rfl⟩

theorem advanced_out (i : Nat) (o : Outgoing) : hub.Advanced I i o (hub.out I i o) := by
  unfold out
  split
  · refine ⟨⟨_, rfl, rfl⟩, ?_, fun _ _ => rfl, fun _ _ => rfl, fun _ _ h => h, rfl, rfl, rfl⟩
    intro k hk
    exact (Dict.get_set ..).trans (if_neg hk)
  · exact advanced_stand i o .awaitReply

theorem Move.advanced (h : hub.Move I e hub') {i : Nat} (he : e.acts = some i) :
    ∃ o, hub.calls[i]? = some o ∧ hub.Advanced I i o hub' := by
  cases h with
  | @out _ o ho =>
    cases he
    exact ⟨o, ho, advanced_out ..⟩
  | @pulling _ _ o ho =>
    cases he
    exact ⟨o, ho, advanced_stand ..⟩
  | @abandoned _ o ho =>
    cases he
    exact ⟨o, ho, advanced_stand ..⟩
  | @finished _ _ o he' ho =>
    obtain rfl := Option.some.inj (he'.symm.trans he)
    exact ⟨o, ho, advanced_finish ..⟩
  | stopped h => rcases h with rfl | ⟨_, _, rfl, _⟩ <;> cases he
  | _ => cases he

theorem Advanced.other {i j : Nat} {o : Outgoing} (h : hub.Advanced I j o hub') (hij : j ≠ i) :
    hub'.calls[i]? = hub.calls[i]? := by
  obtain ⟨o', hset, _⟩ := h.calls
  rw [hset, List.getElem?_set_ne hij]

end Hub

end Memnode.Replication
