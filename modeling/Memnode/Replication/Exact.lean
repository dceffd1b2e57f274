/-
Memnode.Replication.Exact — concurrent transfers reassemble exactly.

`Settled` says what a remote call has to have done when it is over: one
BlockManager call on the peer with its arguments, and that call's
outcome as its result; for a block over the limit no call and
`OutOfMemory`. It mentions no chunk size and no threshold.

`transfers_exact` is the statement about all runs in which no timeout,
no garbage collection and no full reassembly table interferes and every
frame fits. Calls that are over are settled, schedules end, and where one
ends every call is over. The frame limit is a real condition:
`oversized_frame_strands` is a block within `MAX_BLOCK_SIZE` whose single
frame is over `MAX_FRAME_SIZE`.
-/
import Memnode.Replication.Transfers

set_option linter.unusedSectionVars false

namespace Memnode.Replication

open Lib Blocks

variable {K : Type} [DecidableEq K] (I : Interpreter K)

/-- A request whose result is `result` after the BlockManager calls
`made` were made for it. -/
def Settled (made : List (Call K × Outcome)) (result : Result) : Request → Prop
  | .store data d key =>
      if data.length ≤ Config.maxBlockSize then
        (∃ b, made = [(.store ⟨data, d, storeKey I key⟩, .stored b)] ∧
          result = .stored (.int b)) ∨
        ∃ e : StoreError, made = [(.store ⟨data, d, storeKey I key⟩, .failed e)] ∧
          result = .outOfMemory (.str e.message)
      else made = [] ∧ result = .outOfMemory (.str (refusal data.length))
  | .load block key => ∃ data, made = [(loadOf I block key, .loaded data)] ∧ result = .loaded data

/-- The request and the outcome on the peer determine the result. -/
theorem Settled.unique {r : Request} {made : List (Call K × Outcome)} {x y : Result}
    (hx : Settled I made x r) (hy : Settled I made y r) : x = y := by
  cases r with
  | store data d key =>
    simp only [Settled] at hx hy
    split at hx
    · rename_i hsmall
      rw [if_pos hsmall] at hy
      rcases hx with ⟨b, hmade, rfl⟩ | ⟨e, hmade, rfl⟩ <;>
        rcases hy with ⟨b', hmade', rfl⟩ | ⟨e', hmade', rfl⟩ <;>
        · rw [hmade] at hmade'
          cases hmade'
          try rfl
    · rename_i hlarge
      rw [if_neg hlarge] at hy
      rw [hx.2, hy.2]
  | load block key =>
    obtain ⟨data, hmade, rfl⟩ := hx
    obtain ⟨data', hmade', rfl⟩ := hy
    rw [hmade] at hmade'
    cases hmade'
    rfl

theorem Verdict.settled {r : Request} (v : Verdict r) : Settled I (v.log I) v.result r := by
  cases v with
  | stored small res =>
    simp only [Settled, if_pos small]
    cases res with
    | ok b => exact Or.inl ⟨b, rfl, rfl⟩
    | error e => exact Or.inr ⟨e, rfl, rfl⟩
  | loaded data => exact ⟨data, rfl, rfl⟩
  | refused large =>
    simp only [Settled, if_neg (Nat.not_le_of_lt large)]
    exact ⟨rfl, rfl⟩

section Stages

variable {chS chT : Chunking} {i : Nat} {c : RemoteCall} {S T : Slice K}

theorem Stage.settled (h : Stage I chS chT i c S T) {r : Result} (hdone : c.phase = .done r) :
    Settled I T.log r c.request := by
  cases h with
  | asking _ _ phase =>
    rw [hdone] at phase
    cases phase
  | serving phase =>
    rw [hdone] at phase
    cases phase
  | answering v _ phase =>
    rcases phase with phase | ⟨_, phase, _⟩ <;>
      · rw [hdone] at phase
        cases phase
  | done v _ phase =>
    rw [hdone] at phase
    cases phase
    exact v.settled I

/-- Before it is over, nothing was done for the request, or what settles it. -/
theorem Stage.made (h : Stage I chS chT i c S T) :
    T.log = [] ∨ ∃ r, Settled I T.log r c.request := by
  cases h with
  | asking => exact Or.inl rfl
  | serving => exact Or.inl rfl
  | answering v => exact Or.inr ⟨_, v.settled I⟩
  | done v => exact Or.inr ⟨_, v.settled I⟩

end Stages

/-! ## Where no step is possible -/

theorem serve_isSome {cfg : Settings (KeyObject K)} (h : Handler K) (hbusy : h ≠ .idle)
    (hsend : ∀ reqId m rest, h ≠ .send reqId m rest) (ch : Chunking) (stream : Nat)
    (m : BlockManager cfg) (sh : Shuffles cfg.stripeCount) : h.serve ch stream m sh ≠ none := by
  cases h with
  | idle => exact absurd rfl hbusy
  | send reqId x rest => exact absurd rfl (hsend reqId x rest)
  | store reqId transfer data d key => simp [Handler.serve]
  | load reqId call => cases call <;> simp [Handler.serve]
  | free reqId block => simp [Handler.serve]

section Quiet

variable {net : Net K}

/-- Nothing can be worked on. -/
def Net.Quiet (net : Net K) : Prop := ∀ e : Event K, e.Progress → net.step I e = none

theorem Net.Quiet.handler (h : net.Quiet I) (s : Side) : (net s).handler = .idle := by
  by_contra hbusy
  by_cases hsend : ∃ reqId m rest, (net s).handler = .send reqId m rest
  · obtain ⟨reqId, m, rest, hsend⟩ := hsend
    have hnone := h (.reply s) trivial
    simp only [Net.step, Node.reply, hsend, Option.map_eq_none_iff] at hnone
    split at hnone <;> cases hnone
  · have hnone := h (.serve s Shuffles.identity) trivial
    simp only [Net.step, Option.map_eq_none_iff, Node.serve] at hnone
    split at hnone
    · rename_i hserve
      exact serve_isSome _ hbusy (fun reqId m rest heq => hsend ⟨reqId, m, rest, heq⟩) _ _ _ _ hserve
    · cases hnone

theorem Net.Quiet.outbox (hinv : Inv I net) (h : net.Quiet I) (s : Side) : (net s).outbox = [] := by
  cases hbox : (net s).outbox with
  | nil => rfl
  | cons x rest =>
    have hnone := h (.deliver s 0 0) trivial
    have hidle := h.handler I s.other
    simp only [Net.step, Net.deliver, hbox, List.getElem?_cons_zero, hinv.opened s, hidle,
      List.take_zero, List.any_nil, Bool.false_eq_true, or_self, if_false] at hnone
    split at hnone <;> cases hnone

/-- A call that can go on does. -/
theorem Net.Quiet.waits (h : net.Quiet I) (hinv : Inv I net) {s : Side} {i : Nat} {c : RemoteCall}
    (hc : (net s).calls[i]? = some c) :
    (∀ header m rest, c.phase ≠ .send header m rest) ∧
      (c.phase = .awaitReply → c.reply = none) ∧ (c.phase = .awaitPull i → c.pull = none) := by
  have hnone := h (.advance s i) trivial
  simp only [Net.step, Option.map_eq_none_iff, Node.advance, hc] at hnone
  refine ⟨fun header m rest hp => ?_, fun hp => ?_, fun hp => ?_⟩
  · simp only [hp, hinv.opened s, Bool.false_eq_true, if_false] at hnone
    cases hnone
  · simpa [hp] using hnone
  · simp only [hp, hc, Option.bind_some] at hnone
    cases hpull : c.pull with
    | none => rfl
    | some res =>
      rw [hpull] at hnone
      cases res <;> cases hnone

theorem Net.Quiet.unsent (h : net.Quiet I) (hinv : Inv I net) {s : Side} {i : Nat} {c : RemoteCall}
    (hc : (net s).calls[i]? = some c) {unsent : List (Int × Message)}
    (hp : c.phase.unsent = some unsent) : unsent = [] := by
  cases unsent with
  | nil => rfl
  | cons m rest =>
    have hsend := (h.waits I hinv hc).1
    cases hphase : c.phase <;> simp_all [Phase.unsent]

/-- **Where nothing can be worked on, every call is over.** -/
theorem Inv.over (hinv : Inv I net) (h : net.Quiet I) {s : Side} {i : Nat} {c : RemoteCall}
    (hc : (net s).calls[i]? = some c) : ∃ r, c.phase = .done r := by
  have hst := hinv.staged hc
  have hS : ((net s).slice I (I.strKey c.reqId)).queue = [] := by
    simp [Node.slice, h.outbox I hinv s, queueOf]
  have hT : ((net s.other).slice I (I.strKey c.reqId)).queue = [] := by
    simp [Node.slice, h.outbox I hinv s.other, queueOf]
  have hH : ((net s.other).slice I (I.strKey c.reqId)).handler = .idle := by
    simp [Node.slice, h.handler I s.other]
  obtain ⟨_, hreply, hpull⟩ := h.waits I hinv hc
  generalize (net s).slice I (I.strKey c.reqId) = S at hst hS
  generalize (net s.other).slice I (I.strKey c.reqId) = T at hst hT hH
  cases hst with
  | @asking stream got queued unsent buffer messages left phase =>
    simp only at hS
    subst hS
    exact absurd (h.unsent I hinv hc phase) left
  | serving => cases hreq : c.request <;> simp [hreq, Request.work] at hH
  | @answering v stream queued unsent got replies outs pending pull buffer leftover phase messages
      heard =>
    simp only at hT hH
    subst hT
    have houts : outs = [] := by
      cases outs with
      | nil => rfl
      | cons m rest => cases hH
    subst houts
    have hphase : c.phase = .awaitReply ∨ c.phase = .awaitPull i ∧ pull = some i := by
      rcases phase with phase | ⟨_, phase⟩
      · have hnil := h.unsent I hinv hc phase
        subst hnil
        exact Or.inl (Phase.eq_awaitReply phase)
      · exact Or.inr phase
    -- all replies were heard, so a future the call waits for has its result
    generalize hrest : ([] : List (Int × Message)) ++ [] = rest at heard messages
    cases heard with
    | nothing =>
      subst hrest
      exact absurd messages (v.replies_ne_nil _ stream c.reqId)
    | reply _ hasReply =>
      rcases hphase with hp | ⟨_, hp⟩
      · rw [hreply hp] at hasReply
        cases hasReply
      · cases hp
    | header _ _ _ _ _ left => exact absurd hrest.symm left
    | all _ _ _ hasReply hasPull =>
      rcases hphase with hp | ⟨hp, _⟩
      · rw [hreply hp] at hasReply
        cases hasReply
      · rw [hpull hp] at hasPull
        cases hasPull
  | done v leftover phase => exact ⟨_, phase⟩

end Quiet

/-! ## The result -/

/-- **Concurrent transfers reassemble exactly.** In every state of every
calm run: a call that is over is settled; for one that is not, nothing
has been done or what settles it; where nothing can be worked on, every
call is over; no schedule works on forever; and no BlockManager call was
made for a peer without a request. The result of a call depends on its
arguments and on what the peer's BlockManager answered, whatever the
chunking of the nodes in this run or another. -/
theorem transfers_exact {net : Net K} (h : Net.Reachable I (Net.Calm I) net) :
    (∀ s, ∀ c ∈ (net s).calls, ∀ r, c.phase = .done r →
      Settled I (net.served I s.other (I.strKey c.reqId)) r c.request) ∧
    (∀ s, ∀ c ∈ (net s).calls, net.served I s.other (I.strKey c.reqId) = [] ∨
      ∃ r, Settled I (net.served I s.other (I.strKey c.reqId)) r c.request) ∧
    ((∀ e : Event K, e.Progress → net.step I e = none) →
      ∀ s, ∀ c ∈ (net s).calls, ∃ r, c.phase = .done r) ∧
    Acc (fun y x => Net.Works I x y) net ∧
    (∀ s, ∀ x ∈ (net s).log, ∃ c ∈ (net s.other).calls, I.key x.1 = some (I.strKey c.reqId)) ∧
    ∀ net₂ : Net K, Net.Reachable I (Net.Calm I) net₂ →
      ∀ s s₂, ∀ c ∈ (net s).calls, ∀ c₂ ∈ (net₂ s₂).calls, c.request = c₂.request →
      net.served I s.other (I.strKey c.reqId) = net₂.served I s₂.other (I.strKey c₂.reqId) →
      ∀ r r₂, c.phase = .done r → c₂.phase = .done r₂ → r = r₂ := by
  have hinv := inv_reachable I h
  have hsettled : ∀ {net : Net K}, Inv I net → ∀ s, ∀ c ∈ (net s).calls, ∀ r, c.phase = .done r →
      Settled I (net.served I s.other (I.strKey c.reqId)) r c.request := by
    intro net hinv s c hc r hdone
    obtain ⟨i, hi⟩ := List.mem_iff_getElem?.mp hc
    exact (hinv.staged hi).settled I hdone
  refine ⟨hsettled hinv, ?_, ?_, hinv.terminates I, ?_, ?_⟩
  · intro s c hc
    obtain ⟨i, hi⟩ := List.mem_iff_getElem?.mp hc
    exact (hinv.staged hi).made I
  · intro hquiet s c hc
    obtain ⟨i, hi⟩ := List.mem_iff_getElem?.mp hc
    exact hinv.over I hquiet hi
  · intro s x hx
    obtain ⟨k, hk⟩ := (hinv.keyed s).log x hx
    have hmem : x.2 ∈ ((net s).slice I k).log :=
      List.mem_map.mpr ⟨x, List.mem_filter.mpr ⟨hx, by simp [hk]⟩, rfl⟩
    obtain ⟨t, i, c, hc, rfl⟩ := hinv.owner I (s := s) (k := k)
      (fun he => by rw [he] at hmem; exact absurd hmem List.not_mem_nil)
    rcases Side.eq_or_other s t with rfl | rfl
    · rw [(hinv.staged hc).client_log] at hmem
      exact absurd hmem List.not_mem_nil
    · exact ⟨c, List.mem_of_getElem? hc, hk⟩
  · intro net₂ h₂ s s₂ c hc c₂ hc₂ hreq hserved r r₂ hr hr₂
    have hone := hsettled hinv s c hc r hr
    have htwo := hsettled (inv_reachable I h₂) s₂ c₂ hc₂ r₂ hr₂
    rw [← hserved, ← hreq] at htwo
    exact hone.unique I htwo

/-! ## Runs that can be evaluated -/

instance decidableNew (net : Net K) (reqId : String) :
    Decidable (∀ s, ∀ c ∈ (net s).calls, c.reqId ≠ reqId) :=
  decidable_of_iff ((∀ c ∈ (net .left).calls, c.reqId ≠ reqId) ∧
      ∀ c ∈ (net .right).calls, c.reqId ≠ reqId)
    ⟨fun h s => by cases s; exacts [h.1, h.2], fun h => ⟨h .left, h .right⟩⟩

instance decidableUndisturbed (net : Net K) (e : Event K) : Decidable (net.Undisturbed I e) :=
  match e with
  | .call _ request reqId _ =>
      inferInstanceAs (Decidable (reqId ≠ "" ∧ (∀ s, ∀ c ∈ (net s).calls, c.reqId ≠ reqId) ∧
        request.hashable I = true))
  | .deliver s i now =>
      inferInstanceAs (Decidable
        ((∀ e ∈ (net s.other).coordinator.buffers.entries, e.2.stale now = false) ∧
          ∀ x ∈ (net s).outbox[i]?, x.2.type = .storeBlock →
            (net s.other).coordinator.buffers.size < Config.maxInboundStreams))
  | .timeout _ _ => isFalse (fun h => h)
  | .advance _ _ => isTrue trivial
  | .serve _ _ => isTrue trivial
  | .reply _ => isTrue trivial
  | .own _ _ (.store r) => inferInstanceAs (Decidable (hashError r.key = none))
  | .own _ _ (.load _) => isTrue trivial
  | .own _ _ (.loadByKey _) => isTrue trivial
  | .own _ _ (.free _) => isTrue trivial
  | .own _ _ (.freeByKey _) => isTrue trivial

instance decidableFits (net : Net K) (e : Event K) : Decidable (net.Fits I e) :=
  match e with
  | .deliver s i _ =>
      decidable_of_iff (∀ x ∈ (net s).outbox[i]?, (x.2.transmit I.packer).isSome = true)
        ⟨fun h x hx hnone => by simpa [hnone] using h x hx,
          fun h x hx => Option.isSome_iff_ne_none.mpr (h x hx)⟩
  | .call _ _ _ _ => isTrue trivial
  | .timeout _ _ => isTrue trivial
  | .advance _ _ => isTrue trivial
  | .serve _ _ => isTrue trivial
  | .reply _ => isTrue trivial
  | .own _ _ _ => isTrue trivial

instance decidableCalm (net : Net K) (e : Event K) : Decidable (net.Calm I e) :=
  inferInstanceAs (Decidable (net.Undisturbed I e ∧ net.Fits I e))

/-- These events, one after the other, if all are calm. -/
def Net.run (net : Net K) : List (Event K) → Option (Net K)
  | [] => some net
  | e :: rest => if net.Calm I e then (net.step I e).bind (fun net' => Net.run net' rest) else none

theorem Net.Reachable.run {net : Net K} (h : Net.Reachable I (Net.Calm I) net) :
    ∀ {events : List (Event K)} {net' : Net K}, net.run I events = some net' →
      Net.Reachable I (Net.Calm I) net' := by
  intro events
  induction events generalizing net with
  | nil =>
    intro net' hrun
    cases hrun
    exact h
  | cons e rest ih =>
    intro net' hrun
    simp only [Net.run] at hrun
    split at hrun
    · rename_i hcalm
      obtain ⟨mid, hmid, hrest⟩ := Option.bind_eq_some_iff.mp hrun
      exact ih (h.step hcalm hmid) hrest
    · cases hrun

/-- Two nodes with this chunking and room for 100 bytes, before the first call. -/
def freshPair (ch : Chunking) : Net (Option String ⊕ Int) := fun s =>
  { cfg := ⟨100, 2, by decide, fun _ => 0⟩
    chunking := ch
    pubkey :=
      match s with
      | .left => "aaaa"
      | .right => "bbbb"
    manager := .init _
    coordinator := .init
    calls := []
    handler := .idle
    outbox := []
    closed := false
    log := []
    commits := [] }

theorem fresh_freshPair (ch : Chunking) (s : Side) : (freshPair ch s).Fresh :=
  ⟨rfl, rfl, rfl, rfl, rfl, rfl, rfl, AnyKey.hashable_init _⟩

/-- A call is over. -/
def RemoteCall.over (c : RemoteCall) : Bool :=
  match c.phase with
  | .done _ => true
  | _ => false

/-- A store of three bytes in chunks of two, and a load of them by key
that overtakes nothing. -/
def chunkedRun : List (Event (Option String ⊕ Int)) :=
  [.call .left (.store [1, 2, 3] .pinned (.str "k")) "r1" "30.0", .advance .left 0,
    .deliver .left 0 0, .advance .left 0, .advance .left 0, .deliver .left 0 0, .deliver .left 0 0,
    .serve .right Shuffles.identity, .reply .right, .deliver .right 0 0, .advance .left 0,
    .call .left (.load none (some "k")) "r2" "30.0", .advance .left 1, .deliver .left 0 0,
    .serve .right Shuffles.identity, .reply .right, .reply .right, .deliver .right 0 0,
    .advance .left 1, .reply .right, .deliver .right 0 0, .deliver .right 0 0, .advance .left 1]

theorem transfers_exact_chunkedRun :
    ∃ net, (freshPair ⟨2, by decide, 0⟩).run plainKeys chunkedRun = some net ∧
      (net .left).calls.map RemoteCall.over = [true, true] ∧
      ∀ c ∈ (net .left).calls, ∀ r, c.phase = .done r →
        Settled plainKeys (net.served plainKeys .right (plainKeys.strKey c.reqId)) r c.request := by
  have hover : ((freshPair ⟨2, by decide, 0⟩).run plainKeys chunkedRun).map
      (fun net => (net .left).calls.map RemoteCall.over) = some [true, true] := by
    decide +kernel
  obtain ⟨net, hrun, hover⟩ := Option.map_eq_some_iff.mp hover
  have hreach : Net.Reachable plainKeys (Net.Calm plainKeys) net :=
    (Net.Reachable.start (fresh_freshPair _)).run plainKeys hrun
  exact ⟨net, hrun, hover, (transfers_exact plainKeys hreach).1 .left⟩

/-! ## The frame limit -/

/-- A threshold of `MAX_BLOCK_SIZE`: no block that a node may store is chunked. -/
def wholeBlocks : Chunking := { Chunking.default with chunkThreshold := Config.maxBlockSize }

/-- The two nodes while the left one stores `data` on the right one. -/
def storing (data : Bytes) (phase : Phase) (outbox : List (Int × Message)) (closed : Bool) :
    Net (Option String ⊕ Int) :=
  Function.update (freshPair wholeBlocks) .left
    { freshPair wholeBlocks .left with
      coordinator := { (Coordinator.init : Coordinator (Option String ⊕ Int)) with
        pending := Dict.empty.set (plainKeys.strKey "r1") 0 }
      calls := [⟨"bbbb", .store data .pinned .nil, "r1", "30.0", none, none, phase⟩]
      outbox := outbox
      closed := closed }

section Oversized

variable {data : Bytes}

theorem call_storing (hsmall : data.length ≤ Config.maxBlockSize) :
    (freshPair wholeBlocks).step plainKeys (.call .left (.store data .pinned .nil) "r1" "30.0")
      = some (storing data
          (.send true (Config.controlStreamId, storeFrame "r1" data .pinned .nil) []) [] false) := by
  have hwhole : ¬ wholeBlocks.chunkThreshold < data.length := Nat.not_lt.mpr hsmall
  simp only [Net.step, Node.call, freshPair, Request.header, Request.chunks, Request.chunked,
    hwhole, decide_false]
  rfl

theorem send_storing (m : Int × Message) :
    (storing data (.send true m []) [] false).step plainKeys (.advance .left 0)
      = some (storing data .awaitReply [m] false) :=
  congrArg some (Function.update_idem ..)

/-- The frame cannot be written, so the writer closes the link. -/
theorem write_storing {m : Int × Message} (hframe : m.2.transmit plainKeys.packer = none) :
    (storing data .awaitReply [m] false).step plainKeys (.deliver .left 0 0)
      = some (storing data .awaitReply [] true) := by
  have hfirst : ((storing data .awaitReply [m] false) .left).outbox[0]? = some (m.1, m.2) := rfl
  simp only [Net.step, Net.deliver, hfirst, hframe]
  exact congrArg some (Function.update_idem ..)

/-- Nobody goes on: the peer has heard nothing and the call has no reply. -/
theorem storing_stuck (e : Event (Option String ⊕ Int)) (he : e.Progress) :
    (storing data .awaitReply [] true).step plainKeys e = none := by
  cases e with
  | advance s i =>
    cases s with
    | left => cases i <;> rfl
    | right => rfl
  | deliver s i now => cases s <;> rfl
  | serve s sh => cases s <;> rfl
  | reply s => cases s <;> rfl
  | _ => exact he.elim

theorem storing_reachable (hsmall : data.length ≤ Config.maxBlockSize)
    (hframe : (storeFrame "r1" data .pinned .nil).transmit .msgpack = none) :
    Net.Reachable plainKeys (Net.Undisturbed plainKeys) (storing data .awaitReply [] true) := by
  have hstart : Net.Reachable plainKeys (Net.Undisturbed plainKeys) (freshPair wholeBlocks) :=
    .start (fresh_freshPair _)
  have hcall := hstart.step (e := .call .left (.store data .pinned .nil) "r1" "30.0")
    ⟨by decide, fun s c hc => by cases s <;> exact absurd hc List.not_mem_nil, rfl⟩
    (call_storing hsmall)
  have hqueue := hcall.step (e := .advance .left 0) trivial (send_storing _)
  have hroom : 0 < Config.maxInboundStreams := by decide
  exact hqueue.step (e := .deliver .left 0 0)
    ⟨fun _ he => absurd he List.not_mem_nil, fun _ _ _ => hroom⟩ (write_storing hframe)

end Oversized

/-- A store of 16 MiB, a quarter of `MAX_BLOCK_SIZE`, in one frame: the
frame does not fit, the link closes, nothing is stored and, with no
timeout, the call waits forever. -/
theorem oversized_frame_strands :
    ∃ (data : Bytes) (net : Net (Option String ⊕ Int)), data.length ≤ Config.maxBlockSize ∧
      Net.Reachable plainKeys (Net.Undisturbed plainKeys) net ∧
      (∃ c ∈ (net .left).calls, c.request = .store data .pinned .nil ∧ c.phase = .awaitReply) ∧
      (net .right).log = [] ∧
      ∀ e : Event (Option String ⊕ Int), e.Progress → net.step plainKeys e = none := by
  have hlength : (List.replicate Config.maxFrameSize (0 : UInt8)).length = Config.maxFrameSize :=
    List.length_replicate
  have hsmall : (List.replicate Config.maxFrameSize (0 : UInt8)).length ≤ Config.maxBlockSize := by
    rw [hlength]
    decide
  have hframe : (storeFrame "r1" (List.replicate Config.maxFrameSize 0) .pinned .nil).transmit
      .msgpack = none := by
    by_contra hsent
    have hfits := storeFrame_length hsent
    rw [hlength] at hfits
    exact absurd hfits (by decide)
  exact ⟨_, _, hsmall, storing_reachable hsmall hframe,
    ⟨_, List.mem_singleton_self _, rfl, rfl⟩, rfl, storing_stuck⟩

end Memnode.Replication
