/-
Memnode.Replication.Isolation — what a peer can do to the transfers and
requests of another.

The tables of the coordinator are shared by all peers, and a message
finds its entry by the request id in its own body; nothing compares the
sender with the peer an entry belongs to. `Respects` is the condition
under which a message keeps to its sender's entries: the request it
answers was addressed to the sender, and the buffers it reaches, replaces
or collects were opened by the sender. A message that leaves the entries
of other peers as they are keeps to it (`Untouched.keeps`), and as long
as all messages have kept to it, one that keeps to it leaves them so
(`Keeps.untouched`).

  §1 entries and their owners;
  §2 a message that reaches an entry changes it;
  §3 a message that keeps to its sender's entries changes no other.
-/
import Memnode.Replication.Declared

namespace Memnode.Replication

open Lib Blocks

variable {K : Type} [DecidableEq K] {I : Interpreter K}

/-! ## §1 Owners -/

/-- A message puts a new buffer under `k`. -/
def Opens (I : Interpreter K) (now : Rat) (c : Coordinator K) (msg : Message) (k : K) : Prop :=
  (∃ f, OpensPull I now c msg k f) ∨ OpensPush I now c msg k

namespace Hub

/-- The entries of peers other than `q` are the same in both states:
their buffers, their requests and pulls, and the futures of the calls
addressed to them. -/
structure Untouched (q : String) (hub hub' : Hub K) : Prop where
  buffers : ∀ k b, hub.coordinator.buffers.get k = some b → b.peer ≠ q →
    hub'.coordinator.buffers.get k = some b
  pending : ∀ (k : K) (f : Nat) (o : Outgoing), hub.coordinator.pending.get k = some f →
    hub.calls[f]? = some o → o.peer ≠ q → hub'.coordinator.pending.get k = some f
  pullFutures : ∀ (k : K) (f : Nat) (o : Outgoing), hub.coordinator.pullFutures.get k = some f →
    hub.calls[f]? = some o → o.peer ≠ q → hub'.coordinator.pullFutures.get k = some f
  calls : ∀ (i : Nat) (o : Outgoing), hub.calls[i]? = some o → o.peer ≠ q → hub'.calls[i]? = some o

/-- A message of `q` keeps to the entries of `q`. -/
structure Keeps (I : Interpreter K) (hub : Hub K) (q : String) (msg : Message) (now : Rat) :
    Prop where
  replies : ∀ (k : K) (f : Nat) (o : Outgoing), Replies I now hub.coordinator msg k f →
    hub.calls[f]? = some o → o.peer = q
  touches : ∀ k b, Touches I now hub.coordinator msg k b → b.peer = q
  opens : ∀ k b, Opens I now hub.coordinator msg k → hub.coordinator.buffers.get k = some b →
    b.peer = q

/-- Every message keeps to the entries of its sender. -/
def Respects (I : Interpreter K) (hub : Hub K) : Event K → Prop
  | .receive q msg now => hub.Keeps I q msg now
  | _ => True

end Hub

/-! ## §2 Reached entries change -/

section Reached

variable {now : Rat} {c : Coordinator K} {peer : String} {msg : Message} {k : K}

/-- A chunk changes the buffer it is for. -/
theorem ChunkFor.changes {b : Buffer} (h : ChunkFor I c msg k b) :
    (handleMessage I now c peer msg).coordinator.buffers.get k ≠ some b := by
  cases hchunk : chunkOf msg with
  | none =>
    have heq := handleMessage_ends I now peer (h.ends hchunk)
    simp [heq]
  | some chunk =>
    have hadd : b.add chunk ≠ b := by
      intro heq
      have hparts := congrArg Buffer.parts heq
      simp [Buffer.add] at hparts
    rw [handleMessage_chunk I now peer h hchunk]
    split
    · simpa [Handled.ended] using hadd
    · simp
    · split
      · simp
      · simpa [Handled.ended] using hadd

theorem Ends.changes {b : Buffer} (h : Ends I c msg k b) :
    (handleMessage I now c peer msg).coordinator.buffers.get k = none := by
  have heq := handleMessage_ends I now peer h
  simp [heq]

theorem OpensPush.handled (h : OpensPush I now c msg k) (peer : String) :
    ∃ c' rs, gcBuffers I now c = (c', rs, true) ∧
      handleMessage I now c peer msg
        = ⟨{ c' with
              buffers := c'.buffers.set k (.new (pushMode msg) (totalSizeOf msg) peer now) },
            rs, .idle⟩ := by
  obtain ⟨hheader, hok, hroom⟩ := h
  cases hgc : gcBuffers I now c with
  | mk c' r =>
    obtain ⟨rs, ok⟩ := r
    rw [hgc] at hok hroom
    simp only at hok hroom
    subst hok
    refine ⟨c', rs, rfl, ?_⟩
    rw [handleMessage_pushHeader I now peer hheader, hgc]
    simp only [if_neg (Nat.not_le_of_lt hroom)]

/-- A new buffer belongs to the sender. -/
theorem Opens.changes (h : Opens I now c msg k) (peer : String) :
    ∃ b, (handleMessage I now c peer msg).coordinator.buffers.get k = some b ∧ b.peer = peer := by
  rcases h with ⟨f, hopens⟩ | hopens
  · obtain ⟨c', rs, _, heq⟩ := hopens.handled peer
    exact ⟨_, by rw [heq]; exact Dict.get_set_self .., rfl⟩
  · obtain ⟨c', rs, _, heq⟩ := hopens.handled peer
    exact ⟨_, by rw [heq]; exact Dict.get_set_self .., rfl⟩

/-- After `_gc_buffers` a message adds at most a buffer of its sender. -/
theorem Collects.handled (h : Collects I c msg) (now : Rat) (peer : String) :
    ∃ c' rs ok, gcBuffers I now c = (c', rs, ok) ∧
      ((handleMessage I now c peer msg).coordinator.buffers = c'.buffers ∨
        ∃ k b, b.peer = peer ∧
          (handleMessage I now c peer msg).coordinator.buffers = c'.buffers.set k b) := by
  cases hgc : gcBuffers I now c with
  | mk c' r =>
    obtain ⟨rs, ok⟩ := r
    refine ⟨c', rs, ok, rfl, ?_⟩
    rcases h with ⟨k, f, hheader⟩ | ⟨k, hheader⟩
    · have hcond : msg.type = .blockData ∧ ((msg.get "chunked").getD .nil).truthy = true :=
        ⟨hheader.data, hheader.chunked⟩
      rw [handleMessage_answers I now peer hheader.toAnswers]
      simp only [handleReply, if_pos hcond, hgc]
      cases ok with
      | false => exact Or.inl rfl
      | true => exact Or.inr ⟨k, _, rfl, rfl⟩
    · rw [handleMessage_pushHeader I now peer hheader, hgc]
      cases ok with
      | false => exact Or.inl rfl
      | true =>
        simp only
        split
        · exact Or.inl rfl
        · exact Or.inr ⟨k, _, rfl, rfl⟩

/-- A dropped buffer is gone, or one of the sender is in its place. -/
theorem dropped_changes {b : Buffer} (hc : Collects I c msg)
    (hb : (k, b) ∈ dropped I (staleBuffers now c)) {b' : Buffer}
    (hget : (handleMessage I now c peer msg).coordinator.buffers.get k = some b') :
    b'.peer = peer := by
  obtain ⟨c', rs, ok, hgc, hbuffers⟩ := hc.handled now peer
  have hmem : k ∈ (dropped I (staleBuffers now c)).map Prod.fst := List.mem_map.mpr ⟨_, hb, rfl⟩
  have hnone : c'.buffers.get k = none := by rw [(gcBuffers_collected hgc).get, if_pos hmem]
  rcases hbuffers with heq | ⟨k', b₀, hpeer, heq⟩
  · rw [heq, hnone] at hget
    cases hget
  · rw [heq, Dict.get_set] at hget
    split at hget
    · rw [← Option.some.inj hget]
      exact hpeer
    · rw [hnone] at hget
      cases hget

/-- A reply takes its request out of the table. -/
theorem Replies.changes {f : Nat} (h : Replies I now c msg k f) :
    (handleMessage I now c peer msg).coordinator.pending.get k = none := by
  rw [handleMessage_answers I now peer h.toAnswers]
  unfold handleReply
  split
  · rename_i hheader
    have hok := h.collected hheader
    cases hgc : gcBuffers I now c with
    | mk c' r =>
      obtain ⟨rs, ok⟩ := r
      rw [hgc] at hok
      simp only at hok
      subst hok
      exact Dict.get_erase_self ..
  · exact Dict.get_erase_self ..

end Reached

/-! ## §3 Other entries do not -/

section Others

variable {now : Rat} {c : Coordinator K} {peer : String} {msg : Message} {k : K}

/-- A buffer that a message neither reaches nor replaces stays. -/
theorem handled_buffer_kept {b : Buffer} (hb : c.buffers.get k = some b)
    (htouches : ¬ Touches I now c msg k b) (hopens : ¬ Opens I now c msg k) :
    (handleMessage I now c peer msg).coordinator.buffers.get k = some b := by
  -- the buffers `_gc_buffers` drops
  have hgone : Collects I c msg → ∀ {c' rs ok}, gcBuffers I now c = (c', rs, ok) →
      c'.buffers.get k = some b := by
    intro hc c' rs ok hgc
    rw [(gcBuffers_collected hgc).get, if_neg, hb]
    intro hmem
    obtain ⟨⟨k', b'⟩, he, rfl⟩ := List.mem_map.mp hmem
    have hstale : Touches I now c msg k' b' := .stale hc he
    obtain rfl : b' = b := Option.some.inj (hstale.buffer.symm.trans hb)
    exact htouches hstale
  have hother : ∀ {k' b'}, Touches I now c msg k' b' → k ≠ k' := by
    intro k' b' ht heq
    subst heq
    obtain rfl : b' = b := Option.some.inj (ht.buffer.symm.trans hb)
    exact htouches ht
  generalize hh : handleMessage I now c peer msg = h
  have heffect : Effect I now c peer msg h := hh ▸ handleMessage_effect I now c peer msg
  cases heffect with
  | quiet next => exact hb
  | collected hc hgc => exact hgone hc hgc
  | answered => exact hb
  | openedPull hheader hgc =>
    simp only [Dict.get_set]
    rw [if_neg]
    · exact hgone (Or.inl ⟨_, _, hheader⟩) hgc
    · intro hk
      subst hk
      exact hopens (Or.inl ⟨_, hheader, by rw [hgc]⟩)
  | openedPush hheader hgc hroom =>
    simp only [Dict.get_set]
    rw [if_neg]
    · exact hgone (Or.inr ⟨_, hheader⟩) hgc
    · intro hk
      subst hk
      exact hopens (Or.inr ⟨hheader, by rw [hgc], by rw [hgc]; exact hroom⟩)
  | ended he =>
    simp only [Dict.get_erase]
    rw [if_neg (hother (.ends he)), hb]
  | extended hf =>
    simp only [Handled.ended, Dict.get_set]
    rw [if_neg (hother (.chunk hf)), hb]
  | overran hf =>
    simp only [afterOverrun_coordinator, Dict.get_erase]
    rw [if_neg (hother (.chunk hf)), hb]
  | completed hf =>
    simp only [completeTransfer_coordinator, Dict.get_erase]
    rw [if_neg (hother (.chunk hf)), hb]

/-- A pull stays in its table, or a header is given its place. -/
theorem handled_pullFutures_kept (now : Rat) (peer : String) (msg : Message) {f : Nat}
    (hf : c.pullFutures.get k = some f) :
    (handleMessage I now c peer msg).coordinator.pullFutures.get k = some f ∨
      ∃ f', c.pending.get k = some f' ∧
        (handleMessage I now c peer msg).coordinator.pullFutures.get k = some f' := by
  generalize hh : handleMessage I now c peer msg = h
  have heffect : Effect I now c peer msg h := hh ▸ handleMessage_effect I now c peer msg
  cases heffect with
  | collected _ hgc =>
    left
    rw [(gcBuffers_collected hgc).pullFutures, hf]
  | @openedPull k' f' hheader _ _ hgc =>
    simp only [Dict.get_set, (gcBuffers_collected hgc).pullFutures]
    split
    · rename_i hk
      subst hk
      exact Or.inr ⟨f', hheader.pending, rfl⟩
    · exact Or.inl hf
  | openedPush _ hgc =>
    left
    simp only [(gcBuffers_collected hgc).pullFutures, hf]
  | overran =>
    left
    rw [afterOverrun_coordinator]
    exact hf
  | completed =>
    left
    rw [completeTransfer_coordinator]
    exact hf
  | _ => exact Or.inl hf

end Others

namespace Hub

variable {hub : Hub K} {q : String} {msg : Message} {now : Rat}

/-- A message that leaves the entries of others as they are keeps to the
entries of its sender. -/
theorem Untouched.keeps (h : hub.Untouched q (hub.receive I q msg now)) :
    hub.Keeps I q msg now where
  replies := by
    intro k f o hreplies ho
    by_contra hpeer
    have hpending := h.pending k f o hreplies.pending ho hpeer
    have hnone : (hub.receive I q msg now).coordinator.pending.get k = none := hreplies.changes
    rw [hnone] at hpending
    cases hpending
  touches := by
    intro k b htouches
    by_contra hpeer
    have hget := h.buffers k b htouches.buffer hpeer
    cases htouches with
    | chunk hf => exact hf.changes hget
    | ends he =>
      have hnone : (hub.receive I q msg now).coordinator.buffers.get k = none := he.changes
      rw [hnone] at hget
      cases hget
    | stale hc he => exact hpeer (dropped_changes hc he hget)
  opens := by
    intro k b hopens hb
    by_contra hpeer
    have hget := h.buffers k b hb hpeer
    obtain ⟨b', hb', hpeer'⟩ := hopens.changes q
    rw [show (hub.receive I q msg now).coordinator.buffers.get k = some b' from hb'] at hget
    exact hpeer (Option.some.inj hget ▸ hpeer')

/-- A pull buffer belongs to the peer its call was addressed to. -/
def Addressed (hub : Hub K) : Prop :=
  ∀ k b f (o : Outgoing), hub.coordinator.buffers.get k = some b → b.mode = .pull f →
    hub.calls[f]? = some o → o.peer = b.peer

/-- The futures a message resolves are those of its sender. -/
theorem Keeps.resolves (h : hub.Keeps I q msg now) (haddressed : hub.Addressed) {i : Nat}
    {o : Outgoing} (ho : hub.calls[i]? = some o) {r : Resolution}
    (hr : (i, r) ∈ (handleMessage I now hub.coordinator q msg).resolved) : o.peer = q := by
  have hfrom := handled_resolved hr
  cases r with
  | reply m =>
    obtain ⟨_, k, hreplies⟩ := hfrom
    exact h.replies k i o hreplies ho
  | pulled data =>
    obtain ⟨k, b, chunk, hc, hmode, _⟩ := hfrom
    rw [haddressed k b i o hc.buffer hmode ho]
    exact h.touches k b (.chunk hc.toChunkFor)
  | pullFailed e =>
    obtain ⟨k, b, htouches, hmode⟩ := hfrom
    rw [haddressed k b i o htouches.buffer hmode ho]
    exact h.touches k b htouches

theorem Keeps.untouched (h : hub.Keeps I q msg now) (hlinked : hub.Linked I)
    (haddressed : hub.Addressed) : hub.Untouched q (hub.receive I q msg now) where
  buffers := by
    intro k b hb hpeer
    refine handled_buffer_kept hb ?_ ?_
    · intro htouches
      exact hpeer (h.touches k b htouches)
    · intro hopens
      exact hpeer (h.opens k b hopens hb)
  pending := by
    intro k f o hf ho hpeer
    rcases handled_pending I now hub.coordinator q msg with
      ⟨heq, _⟩ | ⟨k', f', hreplies, heq, _⟩
    · exact (congrArg (Dict.get · k) heq).trans hf
    · refine (congrArg (Dict.get · k) heq).trans ?_
      rw [Dict.get_erase, if_neg, hf]
      intro hk
      subst hk
      obtain rfl : f' = f := Option.some.inj (hreplies.pending.symm.trans hf)
      exact hpeer (h.replies k f' o hreplies ho)
  pullFutures := by
    intro k f o hf ho _
    rcases handled_pullFutures_kept now q msg hf with hsame | ⟨f', hpending, hnew⟩
    · exact hsame
    · -- both futures are those of the call with this request id
      obtain ⟨x, hx, hkey⟩ := hlinked.pullFutures hf
      obtain ⟨x', hx', hkey'⟩ := (hlinked.pending hpending).1
      have hid : x'.reqId = x.reqId := I.strKey_injective (hkey'.trans hkey.symm)
      rw [← hlinked.distinct hx' hx hid]
      exact hnew
  calls := by
    intro i o ho hpeer
    rw [calls_receive, ho, Option.map_some, Outgoing.settle_of_not_mem]
    intro r hr
    exact hpeer (h.resolves haddressed ho hr)

end Hub

namespace Hub

variable {hub hub' : Hub K} {e : Event K}

theorem Addressed.move (h : hub.Addressed) (hlinked : hub.Linked I) (hmove : hub.Move I e hub')
    (hrespects : hub.Respects I e) : hub'.Addressed := by
  -- a buffer that was there before
  have hold : ∀ k b, hub.coordinator.buffers.get k = some b → ∀ f (o : Outgoing),
      b.mode = .pull f → hub'.calls[f]? = some o → o.peer = b.peer := by
    intro k b hb f o hmode ho
    obtain ⟨x, hx, _⟩ := hlinked.buffers hb hmode
    obtain ⟨o', ho', hlater⟩ := hmove.later hx
    obtain rfl := Option.some.inj (ho.symm.trans ho')
    rw [hlater.peer]
    exact h k b f x hb hmode hx
  intro k b f o hb hmode ho
  rcases hmove.quiet with ⟨q, msg, now, rfl, rfl⟩ | hquiet
  · refine handled_buffers (P := fun _ b => ∀ f (o : Outgoing), b.mode = .pull f →
      (hub.receive I q msg now).calls[f]? = some o → o.peer = b.peer) hold ?_ ?_ ?_ k b hb f o hmode
      ho
    · intro k f hopens f' o hmode ho
      cases hmode
      obtain ⟨x, hx, _⟩ := (hlinked.pending hopens.pending).1
      obtain ⟨o', ho', hlater⟩ := hmove.later hx
      obtain rfl := Option.some.inj (ho.symm.trans ho')
      rw [hlater.peer]
      exact hrespects.replies k f x ⟨hopens.toAnswers, fun _ => hopens.collected⟩ hx
    · intro k _ f o hmode
      cases hmode
    · intro k b chunk _ _ _ hb f o hmode
      exact hb f o hmode
  · exact hold k b (hquiet.buffer_get hb) f o hmode ho

theorem Reachable.addressed (h : Reachable I (Respects I) hub) : hub.Addressed := by
  induction h with
  | start hfresh =>
    intro k b f o hb
    simp [hfresh.coordinator, Coordinator.init] at hb
  | step hreach hrespects hstep ih => exact ih.move hreach.linked (step_moves hstep) hrespects

/-- A message whose request id is in no table keeps to its sender's
entries, if it is no header. -/
theorem keeps_of_unknown {q : String} {msg : Message} {now : Rat} {k : K}
    (hkey : I.key (reqIdOf msg) = some k) (hpending : hub.coordinator.pending.get k = none)
    (hbuffer : hub.coordinator.buffers.get k = none) (hc : ¬ Collects I hub.coordinator msg) :
    hub.Keeps I q msg now where
  replies := by
    intro k' f o hreplies
    obtain rfl : k' = k := Option.some.inj (hreplies.key.symm.trans hkey)
    exact absurd hreplies.pending (by simp [hpending])
  touches := by
    intro k' b htouches
    cases htouches with
    | chunk hf =>
      obtain rfl : k' = k := Option.some.inj (hf.key.symm.trans hkey)
      exact absurd hf.buffer (by simp [hbuffer])
    | ends he =>
      obtain rfl : k' = k := Option.some.inj (he.key.symm.trans hkey)
      exact absurd he.buffer (by simp [hbuffer])
    | stale hc' => exact absurd hc' hc
  opens := by
    intro k' b hopens
    rcases hopens with ⟨f, hopens⟩ | hopens
    · exact absurd (Or.inl ⟨k', f, hopens.toPullHeader⟩) hc
    · exact absurd (Or.inr ⟨k', hopens.toPushHeader⟩) hc

/-- Nothing is there to be touched. -/
theorem Fresh.keeps (h : hub.Fresh) (q : String) (msg : Message) (now : Rat) :
    hub.Keeps I q msg now where
  replies := by
    intro k f o hreplies
    exact absurd hreplies.pending (by simp [h.coordinator, Coordinator.init])
  touches := by
    intro k b htouches
    exact absurd htouches.buffer (by simp [h.coordinator, Coordinator.init])
  opens := by
    intro k b _ hb
    exact absurd hb (by simp [h.coordinator, Coordinator.init])

/-- A push of `p` is open. -/
def opened : Hub (Option String ⊕ Int) :=
  twoStripes.receive plainKeys "p" (storeHeader "t" 3 .pinned .nil 1) 0

theorem opened_reachable {ok : Hub (Option String ⊕ Int) → Event (Option String ⊕ Int) → Prop}
    (hok : ok twoStripes (.receive "p" (storeHeader "t" 3 .pinned .nil 1) 0)) :
    Reachable plainKeys ok opened :=
  .step (.start (fresh_init _ _)) hok rfl

end Hub

end Memnode.Replication
