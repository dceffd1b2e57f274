/-
Memnode.Replication.Answered — the replies to StoreBlock requests.

Runs of clean steps lead a request through its stages to one reply to
its peer, and after the first step that is not clean it is never answered
as it should be: the peer gets nothing, because nobody replies or the
reply goes to another peer, or it gets a Nack for a block that was
committed. `Stage.turn` is both halves for one step, `Missed.turn` says
that nothing mends it later, and `store_answered` is about whole runs.

  §1 what the StoreBlock and its chunks come to;
  §2 stages;
  §3 runs.
-/
import Memnode.Replication.Requests

namespace Memnode.Replication

open Lib Blocks

variable {K : Type} [DecidableEq K] {I : Interpreter K}

/-! ## §1 Outcomes -/

/-- The handler is about to send one Nack. -/
def Handler.Refuses (next : Handler K) : Prop :=
  ∃ reqId error, next = .send reqId (onOwnStream (nack reqId error)) []

/-- The handler is about to store a block. -/
def Handler.Stores (next : Handler K) : Prop :=
  ∃ reqId transfer data d key, next = .store reqId transfer data d key

/-- The reply agrees with what was done. -/
def Agrees (commits : List Commit) (m : Message) : Prop :=
  (m.type = .blockData ∧ (m.get "block_id").isSome = true ∧ commits.length = 1) ∨
    (m.type = .nack ∧ commits = [])

section Outcomes

variable {now : Rat} {c : Coordinator K} {peer : String} {msg : Message} {k : K}

omit [DecidableEq K] in
/-- A single frame is refused or stored. -/
theorem serveStoreFrame_cases (c : Coordinator K) (reqId : Value)
    (body : List (Msgpack.Key × Value)) :
    (serveStoreFrame I c reqId body).coordinator = c ∧
      ((serveStoreFrame I c reqId body).next.Refuses ∨
        (serveStoreFrame I c reqId body).next.Stores) := by
  unfold serveStoreFrame
  split
  · exact ⟨rfl, Or.inl ⟨reqId, _, rfl⟩⟩
  · dsimp only
    split
    · split <;> exact ⟨rfl, Or.inl ⟨reqId, _, rfl⟩⟩
    · exact ⟨rfl, Or.inr ⟨reqId, false, _, _, _, rfl⟩⟩

/-- What a StoreBlock comes to. -/
inductive StoreOutcome (raises : Prop) (k : K) (h : Handled K) : Prop where
  | raised (hraises : raises) (hbuffer : h.coordinator.buffers.get k = none) (hnext : h.next = .idle)
  | refused (hfine : ¬ raises) (hbuffer : h.coordinator.buffers.get k = none)
      (hnext : h.next.Refuses)
  | taken (hfine : ¬ raises) (hbuffer : h.coordinator.buffers.get k = none) (hnext : h.next.Stores)
  | opened (hfine : ¬ raises) {b : Buffer} (hbuffer : h.coordinator.buffers.get k = some b)
      (hnext : h.next = .idle)

theorem handled_storeBlock (htype : msg.type = .storeBlock) (hnamed : reqIdOf msg ≠ .nil)
    (hkey : I.key (reqIdOf msg) = some k) (hpending : c.pending.get k = none)
    (hbuffer : c.buffers.get k = none) :
    StoreOutcome (HeaderRaises I now c msg) k (handleMessage I now c peer msg) := by
  have hfresh : pendingFuture c (reqIdOf msg) k = none := by
    unfold pendingFuture
    split <;> first | rfl | exact hpending
  obtain ⟨body, hbody⟩ := body_of_named hnamed
  have heq : handleMessage I now c peer msg
      = handleRequest I now c peer msg.type (reqIdOf msg) k body := by
    rw [handleMessage_other I now peer hbody (by simp [htype]) hkey, hfresh]
  unfold HeaderRaises
  cases hc : isChunked msg with
  | false =>
    simp only [heq, htype, handleRequest, isChunked_eq hbody, hc, Bool.false_eq_true, if_false]
    obtain ⟨hsame, hrefuses | hstores⟩ := serveStoreFrame_cases (I := I) c (reqIdOf msg) body
    · exact .refused (by simp) (by rw [hsame]; exact hbuffer) hrefuses
    · exact .taken (by simp) (by rw [hsame]; exact hbuffer) hstores
  | true =>
    cases hacc : acceptable (totalSizeOf msg) with
    | false =>
      simp only [heq, htype, handleRequest, isChunked_eq hbody, hc, if_true, serveStoreHeader,
        totalSize_eq hbody, hacc, Bool.not_false]
      cases I.str (totalSizeOf msg) with
      | some text => exact .refused (by simp) hbuffer ⟨_, _, rfl⟩
      | none => exact .raised (by simp) hbuffer rfl
    | true =>
      have hheader : PushHeader I c msg k := ⟨htype, hkey, hfresh, hc, hacc⟩
      rw [handleMessage_pushHeader I now peer hheader]
      cases hgc : gcBuffers I now c with
      | mk c' x =>
        obtain ⟨rs, ok⟩ := x
        have hnone : c'.buffers.get k = none := by
          rw [(gcBuffers_collected hgc).get, hbuffer, ite_self]
        cases ok with
        | false => exact .raised (by simp) hnone rfl
        | true =>
          simp only [if_true]
          split
          · exact .refused (by simp) hnone ⟨_, _, rfl⟩
          · exact .opened (by simp) (Dict.get_set_self ..) rfl

/-- What a chunk of a push comes to. -/
inductive ChunkOutcome (I : Interpreter K) (msg : Message) (k : K) (b : Buffer) (h : Handled K) :
    Prop where
  | malformed (hchunk : chunkOf msg = none) (hbuffer : h.coordinator.buffers.get k = none)
      (hnext : h.next = .idle)
  | overran {chunk : Bytes} (hchunk : chunkOf msg = some chunk)
      (hover : (b.add chunk).overrun I = some true)
      (hbuffer : h.coordinator.buffers.get k = none) (hnext : h.next.Refuses)
  | joined {chunk : Bytes} (hchunk : chunkOf msg = some chunk)
      (hover : (b.add chunk).overrun I = some false) (hfinal : isFinal msg = false)
      (hbuffer : h.coordinator.buffers.get k = some (b.add chunk)) (hnext : h.next = .idle)
  | completed {chunk : Bytes} (hchunk : chunkOf msg = some chunk)
      (hover : (b.add chunk).overrun I = some false) (hfinal : isFinal msg = true)
      (hbuffer : h.coordinator.buffers.get k = none)
      (hnext : if b.deliverable then h.next.Stores else h.next = .idle)

theorem handled_chunk {b : Buffer} (hf : ChunkFor I c msg k b) (hpush : b.isPush = true)
    (hwithin : b.Within) (hslice : I.sliceable k = true) :
    ChunkOutcome I msg k b (handleMessage I now c peer msg) := by
  obtain ⟨dv, kv, hmode⟩ : ∃ d key, b.mode = .store d key := by
    unfold Buffer.isPush at hpush
    split at hpush
    · exact ⟨_, _, by assumption⟩
    · cases hpush
  cases hchunk : chunkOf msg with
  | none =>
    have heq := handleMessage_ends I now peer (hf.ends hchunk)
    exact .malformed hchunk (hf.ends hchunk).changes (by rw [heq])
  | some chunk =>
    obtain ⟨n, hn, _⟩ := hwithin
    have hover : (b.add chunk).overrun I = some (decide (n < (b.add chunk).received)) :=
      Buffer.overrun_asInt hn
    have heq := handleMessage_chunk I now peer hf hchunk
    cases hdec : decide (n < (b.add chunk).received) with
    | true =>
      rw [hdec] at hover
      rw [heq, hover]
      refine .overran hchunk hover (by simp) ⟨reqIdOf msg, .str "chunk overrun", ?_⟩
      simp only [afterOverrun, hslice, if_true, hmode]
      rfl
    | false =>
      rw [hdec] at hover
      rw [heq, hover]
      dsimp only
      cases hfinal : isFinal msg with
      | false =>
        simp only [Bool.false_eq_true, if_false]
        exact .joined hchunk hover hfinal (Dict.get_set_self ..) rfl
      | true =>
        simp only [if_true]
        refine .completed hchunk hover hfinal (by simp) ?_
        have hmode' : (b.add chunk).mode = .store dv kv := hmode
        simp only [completeTransfer, hmode', Buffer.deliverable, hmode]
        cases hd : durabilityOf dv with
        | none => simp [Handled.ended]
        | some d => exact ⟨_, _, _, _, _, rfl⟩

/-- What the BlockManager call of a StoreBlock comes to. -/
inductive ServeOutcome (clean : Prop) (commits : List Commit) (next : Handler K) : Prop where
  | replies (hclean : clean) {reqId : Value} {m : Int × Message} (hnext : next = .send reqId m [])
      (hagrees : Agrees commits m.2)
  | silent (hclean : ¬ clean) (hnext : next = .idle)
  | denies (hclean : ¬ clean) {reqId : Value} {m : Int × Message} (hnext : next = .send reqId m [])
      (hnack : m.2.type = .nack) (hcommits : commits ≠ [])

theorem store_outcome {cfg : Settings (KeyObject K)} (m : BlockManager cfg)
    (sh : Shuffles cfg.stripeCount) (reqId : Value) (transfer : Bool)
    (req : StoreReq (KeyObject K)) {commits : List Commit}
    (hcommits : commits.length = if inserts m sh req.size then 1 else 0) :
    ServeOutcome (CleanStore m sh transfer req) commits
      (afterStore reqId transfer (AnyKey.store m sh req).2 : Handler K) := by
  have hclean : (∀ text, (AnyKey.store m sh req).2 ≠ .error (.unhashable text)) →
      CleanStore m sh transfer req := by
    intro hfine
    cases transfer with
    | true => exact hfine
    | false =>
      intro hstrands
      obtain ⟨⟨text, _, htext⟩, _⟩ := AnyKey.store_strands hstrands
      exact hfine text htext
  rcases store_inserts m sh req with ⟨b, hres, hput⟩ | ⟨e, hres, hput⟩ | ⟨text, hres, hput⟩
  · refine .replies (hclean (by simp [hres])) (by rw [hres]; rfl) (Or.inl ⟨rfl, rfl, ?_⟩)
    rw [hcommits, if_pos hput]
  · refine .replies (hclean (by simp [hres])) (by rw [hres]; rfl) (Or.inr ⟨rfl, ?_⟩)
    exact List.eq_nil_of_length_eq_zero (hcommits.trans (if_neg (ne_true_of_eq_false hput)))
  · cases transfer with
    | true => exact .silent (fun hfine => hfine text hres) (by rw [hres]; rfl)
    | false =>
      by_cases hstrands : AnyKey.Strands m sh req
      · refine .denies (fun hfine => hfine hstrands) (by rw [hres]; rfl) rfl ?_
        exact List.ne_nil_of_length_pos (by rw [hcommits, if_pos (hput.mpr hstrands)]; exact Nat.one_pos)
      · refine .replies hstrands (by rw [hres]; rfl) (Or.inr ⟨rfl, ?_⟩)
        exact List.eq_nil_of_length_eq_zero (hcommits.trans (if_neg (mt hput.mp hstrands)))

end Outcomes

/-! ## §2 Stages -/

/-- The trail of a request of `p` on its way to one reply. -/
inductive Trail.Stage (p : String) : Trail K → Prop where
  | unasked : Trail.Stage p ⟨false, none, fun _ => .idle, fun _ => [], [], []⟩
  | pushing (b : Buffer) : Trail.Stage p ⟨true, some b, fun _ => .idle, fun _ => [], [], []⟩
  | serving {h : Handler K} (hstores : h.Stores) :
      Trail.Stage p ⟨true, none, Function.update (fun _ => .idle) p h, fun _ => [], [], []⟩
  | replying {reqId : Value} {m : Int × Message} {commits : List Commit}
      (hagrees : Agrees commits m.2) :
      Trail.Stage p
        ⟨true, none, Function.update (fun _ => .idle) p (.send reqId m []), fun _ => [], [], commits⟩
  | queued {m : Int × Message} {commits : List Commit} (hagrees : Agrees commits m.2) :
      Trail.Stage p ⟨true, none, fun _ => .idle, Function.update (fun _ => []) p [m], [], commits⟩
  | answered {m : Message} {commits : List Commit} (hagrees : Agrees commits m) :
      Trail.Stage p ⟨true, none, fun _ => .idle, fun _ => [], [(p, m)], commits⟩

/-- The message is a Nack for a block that was committed. -/
def Trail.Denies (t : Trail K) (m : Message) : Prop := m.type = .nack ∧ t.commits ≠ []

/-- The request can no longer be answered as it should: all that `p` was,
is or will be told of it are such Nacks. -/
structure Trail.Missed (p : String) (t : Trail K) : Prop where
  asked : t.asked = true
  buffer : t.buffer = none
  handler : t.handlers p = .idle ∨ ∃ reqId m, t.handlers p = .send reqId m [] ∧ t.Denies m.2
  waiting : ∀ x ∈ t.waiting p, t.Denies x.2
  sent : ∀ x ∈ t.sent, x.1 = p → t.Denies x.2

/-- A clean step keeps the request on its way; after any other it is missed. -/
inductive Trail.Judged (p : String) (clean : Prop) (t : Trail K) : Prop where
  | kept (hclean : clean) (h : t.Stage p)
  | lost (hunclean : ¬ clean) (h : t.Missed p)

/-- `p` got one message for its request, and it agrees with what was done. -/
def Trail.AnsweredOnce (p : String) (t : Trail K) : Prop :=
  ∃ m, t.sent = [(p, m)] ∧ Agrees t.commits m

/-- The node is done with the request. -/
def Trail.Finished (t : Trail K) : Prop :=
  t.buffer = none ∧ ∀ q, t.handlers q = .idle ∧ t.waiting q = []

section Stages

variable {hub : Hub K} {e : Hub.Event K} {p q : String} {k : K} {t t' : Trail K}

omit [DecidableEq K] in
theorem Trail.Missed.not_answered (h : t.Missed p) : ¬ t.AnsweredOnce p := by
  rintro ⟨m, hsent, hagrees⟩
  obtain ⟨hnack, hcommits⟩ := h.sent (p, m) (by rw [hsent]; exact List.mem_singleton_self _) rfl
  rcases hagrees with ⟨hdata, _⟩ | ⟨_, hnone⟩
  · rw [hnack] at hdata
    cases hdata
  · exact hcommits hnone

omit [DecidableEq K] in
/-- Nobody will reply to `p`. -/
theorem missed_silent {handlers : String → Handler K} {waiting : String → List (Int × Message)}
    {commits : List Commit} (hhandler : handlers p = .idle) (hwaiting : waiting p = []) :
    Trail.Missed p ⟨true, none, handlers, waiting, [], commits⟩ :=
  ⟨rfl, rfl, Or.inl hhandler, by simp [hwaiting], by simp⟩

/-- Whatever comes next, it stays so. -/
theorem Trail.Missed.turn (h : t.Missed p) (ht : hub.trail I k = t) (hturn : hub.Turn I p k t e t') :
    t'.Missed p := by
  obtain ⟨hasked, hbuffer, hhandler, hwaiting, hsent⟩ := h
  cases hturn with
  | same => exact ⟨hasked, hbuffer, hhandler, hwaiting, hsent⟩
  | request _ _ _ hnew =>
    rw [hasked] at hnew
    cases hnew
  | chunk hf =>
    rw [← ht, Hub.trail, hf.buffer] at hbuffer
    cases hbuffer
  | @served q sh s hserve _ =>
    have hq : p ≠ q := by
      rintro rfl
      rcases hhandler with hidle | ⟨reqId, m, hsend, _⟩
      · rw [hidle] at hserve
        cases hserve
      · rw [hsend] at hserve
        cases hserve
    have hdenies : ∀ {m}, t.Denies m →
        m.type = .nack ∧ t.commits ++ hub.committed q s.committed ≠ [] :=
      fun hm => ⟨hm.1, by simp [hm.2]⟩
    refine ⟨hasked, hbuffer, ?_, fun x hx => hdenies (hwaiting x hx),
      fun x hx hp => hdenies (hsent x hx hp)⟩
    simp only [Function.update_of_ne hq]
    exact hhandler.imp_right (Exists.imp fun _ => Exists.imp fun _ => And.imp_right hdenies)
  | @replied q reqId m rest hsend =>
    by_cases hq : p = q
    · subst hq
      rcases hhandler with hidle | ⟨reqId', m', hsend', hm⟩
      · rw [hidle] at hsend
        cases hsend
      · rw [hsend'] at hsend
        cases hsend
        refine ⟨hasked, hbuffer, Or.inl (Function.update_self ..), fun x hx => ?_, hsent⟩
        simp only [Function.update_self] at hx
        rcases List.mem_append.mp hx with hx | hx
        · exact hwaiting x hx
        · rw [List.mem_singleton.mp hx]
          exact hm
    · refine ⟨hasked, hbuffer, ?_, ?_, hsent⟩ <;> simp only [Function.update_of_ne hq]
      · exact hhandler
      · exact hwaiting
  | @gone q =>
    refine ⟨hasked, hbuffer, ?_, hwaiting, hsent⟩
    by_cases hq : p = q
    · exact Or.inl (by simp [hq])
    · simp only [Function.update_of_ne hq]
      exact hhandler
  | @wrote q i m ms ms' _ hqueue =>
    refine ⟨hasked, hbuffer, hhandler, fun x hx => ?_, fun x hx hp => ?_⟩
    · by_cases hq : p = q
      · subst hq
        simp only [Function.update_self] at hx
        refine hwaiting x ?_
        rw [hqueue]
        rcases List.mem_append.mp hx with hx | hx
        · exact List.mem_append_left _ hx
        · exact List.mem_append_right _ (List.mem_cons_of_mem _ hx)
      · simp only [Function.update_of_ne hq] at hx
        exact hwaiting x hx
    · rcases List.mem_append.mp hx with hx | hx
      · exact hsent x hx hp
      · rw [List.mem_singleton.mp hx] at hp ⊢
        subst hp
        exact hwaiting m (by rw [hqueue]; simp)
  | @dropped _ q =>
    refine ⟨hasked, hbuffer, hhandler, fun x hx => hwaiting x ?_, hsent⟩
    by_cases hq : p = q
    · simp [hq] at hx
    · simpa only [Function.update_of_ne hq] using hx

omit [DecidableEq K] in
/-- A handler that works for the request is the one of `p`, before the
BlockManager call or before the reply. -/
theorem Trail.Stage.handler (h : t.Stage p) (hq : t.handlers q ≠ .idle) :
    q = p ∧ ((∃ h' : Handler K, h'.Stores ∧
        t = ⟨true, none, Function.update (fun _ => .idle) p h', fun _ => [], [], []⟩) ∨
      ∃ reqId m commits, Agrees commits m.2 ∧ t = ⟨true, none,
        Function.update (fun _ => .idle) p (.send reqId m []), fun _ => [], [], commits⟩) := by
  have hp : ∀ {h' : Handler K}, Function.update (fun _ => Handler.idle) p h' q ≠ .idle → q = p := by
    intro h' hne
    by_contra hqp
    exact hne (Function.update_of_ne hqp ..)
  cases h with
  | serving hstores => exact ⟨hp hq, Or.inl ⟨_, hstores, rfl⟩⟩
  | replying hagrees => exact ⟨hp hq, Or.inr ⟨_, _, _, hagrees, rfl⟩⟩
  | _ => exact absurd rfl hq

omit [DecidableEq K] in
theorem Trail.Stage.sending (h : t.Stage p) {reqId : Value} {m : Int × Message}
    {rest : List (Int × Message)} (hsend : t.handlers q = .send reqId m rest) :
    q = p ∧ rest = [] ∧ ∃ commits, Agrees commits m.2 ∧ t = ⟨true, none,
      Function.update (fun _ => .idle) p (.send reqId m []), fun _ => [], [], commits⟩ := by
  obtain ⟨rfl, ⟨_, ⟨_, _, _, _, _, rfl⟩, rfl⟩ | ⟨_, _, commits, hagrees, rfl⟩⟩ :=
    h.handler (q := q) (by simp [hsend])
  · simp at hsend
  · simp only [Function.update_self, Handler.send.injEq] at hsend
    obtain ⟨rfl, rfl, rfl⟩ := hsend
    exact ⟨rfl, rfl, commits, hagrees, rfl⟩

omit [DecidableEq K] in
/-- A message that waits is the reply to `p`. -/
theorem Trail.Stage.waiting (h : t.Stage p) (hq : t.waiting q ≠ []) :
    q = p ∧ ∃ m commits, Agrees commits m.2 ∧
      t = ⟨true, none, fun _ => .idle, Function.update (fun _ => []) p [m], [], commits⟩ := by
  cases h with
  | queued hagrees =>
    refine ⟨?_, _, _, hagrees, rfl⟩
    by_contra hqp
    exact hq (by simp [Function.update_of_ne hqp])
  | _ => exact absurd rfl hq

omit [DecidableEq K] in
theorem update_idle (p : String) : Function.update (fun _ => (.idle : Handler K)) p .idle = fun _ => .idle :=
  Function.update_eq_self p (fun _ => Handler.idle)

theorem Trail.Stage.request (h : t.Stage p) (ht : hub.trail I k = t)
    (hpending : hub.coordinator.pending.get k = none) {msg : Message} {now : Rat}
    (htype : msg.type = .storeBlock) (hnamed : reqIdOf msg ≠ .nil)
    (hkey : I.key (reqIdOf msg) = some k) (hnew : t.asked = false) {h' : Handled K}
    (hh : handleMessage I now hub.coordinator p msg = h') :
    Trail.Judged p (hub.Clean I p k (.receive p msg now)) { t with
      asked := true
      buffer := h'.coordinator.buffers.get k
      handlers := Function.update t.handlers p h'.next } := by
  have hiff : hub.Clean I p k (.receive p msg now) ↔ ¬ HeaderRaises I now hub.coordinator msg := by
    refine ⟨fun hclean => hclean.1 htype hkey, fun hfine => ⟨fun _ _ => hfine, fun b hf => ?_⟩⟩
    rw [hf.type] at htype
    cases htype
  rw [hiff]
  cases h with
  | unasked =>
    have houtcome : StoreOutcome (HeaderRaises I now hub.coordinator msg) k h' :=
      hh ▸ handled_storeBlock htype hnamed hkey hpending (congrArg Trail.buffer ht)
    cases houtcome with
    | raised hraises hbuffer hnext =>
      rw [hbuffer, hnext]
      exact .lost (not_not_intro hraises) (missed_silent (Function.update_self ..) rfl)
    | refused hfine hbuffer hnext =>
      obtain ⟨reqId, error, hsend⟩ := hnext
      rw [hbuffer, hsend]
      exact .kept hfine (.replying (Or.inr ⟨rfl, rfl⟩))
    | taken hfine hbuffer hnext =>
      rw [hbuffer]
      exact .kept hfine (.serving hnext)
    | @opened hfine b hbuffer hnext =>
      rw [hbuffer, hnext, update_idle]
      exact .kept hfine (.pushing b)
  | _ => cases hnew

theorem Trail.Stage.chunk (h : t.Stage p) (ht : hub.trail I k = t) {msg : Message} {now : Rat}
    {b : Buffer} (hf : ChunkFor I hub.coordinator msg k b) (hpush : b.isPush = true)
    (hwithin : b.Within) (hslice : I.sliceable k = true) {h' : Handled K}
    (hh : handleMessage I now hub.coordinator q msg = h') :
    Trail.Judged p (hub.Clean I p k (.receive q msg now)) { t with
      buffer := h'.coordinator.buffers.get k
      handlers := Function.update t.handlers q h'.next } := by
  have hiff : hub.Clean I p k (.receive q msg now) ↔ ∃ chunk, chunkOf msg = some chunk ∧
      ((b.add chunk).overrun I = some true → q = p) ∧
      ((b.add chunk).overrun I = some false → isFinal msg = true → q = p ∧ b.deliverable = true) := by
    refine ⟨fun hclean => hclean.2 b hf, fun hclean => ⟨fun htype => ?_, fun b' hf' => ?_⟩⟩
    · rw [hf.type] at htype
      cases htype
    · rw [Option.some.inj (hf'.buffer.symm.trans hf.buffer)]
      exact hclean
  have hb : t.buffer = some b := (congrArg Trail.buffer ht).symm.trans hf.buffer
  have houtcome : ChunkOutcome I msg k b h' := hh ▸ handled_chunk hf hpush hwithin hslice
  rw [hiff]
  cases h with
  | pushing =>
    have hsilent : ∀ {next : Handler K}, (q = p → next = .idle) →
        Function.update (fun _ => Handler.idle) q next p = .idle := by
      intro next hidle
      by_cases hq : p = q
      · rw [hq, Function.update_self, hidle hq.symm]
      · exact Function.update_of_ne hq ..
    cases houtcome with
    | malformed hchunk hbuffer hnext =>
      rw [hbuffer, hnext]
      exact .lost (by simp [hchunk]) (missed_silent (hsilent fun _ => rfl) rfl)
    | overran hchunk hover hbuffer hnext =>
      obtain ⟨reqId, error, hsend⟩ := hnext
      rw [hbuffer, hsend]
      by_cases hq : q = p
      · subst hq
        exact .kept (by simp [hchunk, hover]) (.replying (Or.inr ⟨rfl, rfl⟩))
      · exact .lost (by simp [hchunk, hover, hq]) (missed_silent (hsilent fun h => absurd h hq) rfl)
    | joined hchunk hover hfinal hbuffer hnext =>
      rw [hbuffer, hnext, update_idle]
      exact .kept (by simp [hchunk, hover, hfinal]) (.pushing _)
    | completed hchunk hover hfinal hbuffer hnext =>
      rw [hbuffer]
      by_cases hq : q = p ∧ b.deliverable = true
      · obtain ⟨rfl, hdeliverable⟩ := hq
        rw [if_pos hdeliverable] at hnext
        exact .kept (by simp [hchunk, hdeliverable]) (.serving hnext)
      · refine .lost ?_ (missed_silent (hsilent ?_) rfl)
        · rintro ⟨chunk', hchunk', _, hdone⟩
          obtain rfl := Option.some.inj (hchunk.symm.trans hchunk')
          exact absurd (hdone hover hfinal) hq
        · intro hqp
          rwa [if_neg (fun hd => hq ⟨hqp, hd⟩)] at hnext
  | _ => cases hb

/-- The BlockManager call of the request. -/
theorem Trail.Stage.served (h : t.Stage p) (ht : hub.trail I k = t)
    {sh : (stripes : Nat) → Shuffles stripes} {s : Served hub.cfg}
    (hserve : (t.handlers q).serve hub.chunking hub.coordinator.nextStream hub.manager
      (sh hub.cfg.stripeCount) = some s) (hq : t.handlers q = hub.handlers q) :
    Trail.Judged p (hub.Clean I p k (.serve q sh)) { t with
      handlers := Function.update t.handlers q s.next
      commits := t.commits ++ hub.committed q s.committed } := by
  have hbusy : t.handlers q ≠ .idle := by
    intro hidle
    rw [hidle] at hserve
    cases hserve
  obtain ⟨rfl, ⟨_, ⟨reqId, transfer, data, d, key, rfl⟩, rfl⟩ | ⟨reqId, m, commits, _, rfl⟩⟩ :=
    h.handler hbusy
  · simp only [Function.update_self] at hserve hq
    have hiff : hub.Clean I q k (.serve q sh) ↔
        CleanStore hub.manager (sh hub.cfg.stripeCount) transfer ⟨data, d, keyObject key⟩ := by
      constructor
      · intro hclean
        exact hclean reqId transfer data d key (by simp only [ht, Function.update_self])
      · intro hclean reqId' transfer' data' d' key' hstore
        rw [ht] at hstore
        simp only [Function.update_self] at hstore
        cases hstore
        exact hclean
    rw [hiff]
    simp only [Function.update_idem, List.nil_append]
    rcases serve_cases hserve with ⟨_, _, _, _, _, heq, hnext, hins⟩ | ⟨hother, _⟩
    · cases heq
      have hlength : (hub.committed q s.committed).length
          = if inserts hub.manager (sh hub.cfg.stripeCount) data.length then 1 else 0 := by
        rw [← hins]
        cases s.committed <;> simp [Hub.committed, Handler.commit, ← hq]
      rw [hnext]
      have houtcome := store_outcome hub.manager (sh hub.cfg.stripeCount) reqId transfer
        ⟨data, d, keyObject key⟩ hlength
      generalize (afterStore reqId transfer _ : Handler K) = next at houtcome ⊢
      cases houtcome with
      | replies hclean hnext hagrees =>
        rw [hnext]
        exact .kept hclean (.replying hagrees)
      | silent hunclean hnext =>
        rw [hnext, update_idle]
        exact .lost hunclean (missed_silent rfl rfl)
      | @denies hunclean reqId' m hnext hnack hcommits =>
        rw [hnext]
        exact .lost hunclean ⟨rfl, rfl, Or.inr ⟨reqId', m, by simp only [Function.update_self], hnack,
          hcommits⟩, by simp, by simp⟩
    · exact absurd rfl (hother _ _ _ _ _)
  · simp [Handler.serve] at hserve

/-- **One step.** -/
theorem Trail.Stage.turn (h : t.Stage p) (ht : hub.trail I k = t)
    (hpending : hub.coordinator.pending.get k = none)
    (hpush : ∀ b, hub.coordinator.buffers.get k = some b → b.isPush = true ∧ b.Within)
    (hslice : I.sliceable k = true) (hturn : hub.Turn I p k t e t') :
    t'.Judged p (hub.Clean I p k e) := by
  cases hturn with
  | same hclean => exact .kept hclean h
  | request htype hnamed hkey hnew => exact h.request ht hpending htype hnamed hkey hnew rfl
  | chunk hf => exact h.chunk ht hf (hpush _ hf.buffer).1 (hpush _ hf.buffer).2 hslice rfl
  | served hserve hq => exact h.served ht hserve hq
  | @replied q reqId m rest hsend =>
    obtain ⟨rfl, rfl, commits, hagrees, rfl⟩ := h.sending hsend
    have hidle : Function.update (fun _ => Handler.idle) q (.sending reqId [] : Handler K)
        = fun _ => .idle := update_idle q
    simp only [Function.update_idem, hidle, List.nil_append]
    exact .kept trivial (.queued hagrees)
  | gone hsend =>
    obtain ⟨rfl, rfl, commits, hagrees, rfl⟩ := h.sending hsend
    refine .lost (fun hclean => ?_) (missed_silent (Function.update_self ..) rfl)
    have hidle := hclean rfl
    rw [ht, hsend] at hidle
    cases hidle
  | @wrote q i m ms ms' hclean hqueue =>
    obtain ⟨rfl, m', commits, hagrees, rfl⟩ := h.waiting (q := q) (by simp [hqueue])
    simp only [Function.update_self] at hqueue
    obtain ⟨rfl, rfl, rfl⟩ : ms = [] ∧ m = m' ∧ ms' = [] := by
      rcases List.append_eq_cons_iff.mp hqueue.symm with ⟨rfl, heq⟩ | ⟨ms₂, rfl, heq⟩
      · simpa using heq
      · simp at heq
    have hempty : Function.update (fun _ => ([] : List (Int × Message))) q [] = fun _ => [] :=
      Function.update_eq_self q (fun _ => ([] : List (Int × Message)))
    rw [Function.update_idem, List.append_nil, hempty]
    exact .kept hclean (.answered hagrees)
  | dropped hunclean hqueue =>
    obtain ⟨rfl, m, commits, hagrees, rfl⟩ := h.waiting hqueue
    exact .lost (hunclean rfl) (missed_silent rfl (Function.update_self ..))

end Stages

/-! ## §3 Runs -/

namespace Hub

variable {hub hub' : Hub K} {e : Event K} {p r : String} {k : K}

/-- A step that is both. -/
def Proper (I : Interpreter K) (p r : String) (hub : Hub K) (e : Event K) : Prop :=
  hub.Single I p r e ∧ hub.Clean I p (I.strKey r) e

theorem Reachable.foreign (h : Reachable I (Single I p r) hub) : hub.Foreign r := by
  refine Reachable.invariant (I := I) (P := Hub.Foreign r) ?_ ?_ h
  · intro hub hfresh o ho
    rw [hfresh.calls] at ho
    cases ho
  · intro hub hub' e ih hsingle hmove
    exact ih.move hmove hsingle

theorem Reachable.turn (h : Reachable I (Single I p r) hub) (hsingle : hub.Single I p r e)
    (hstep : hub.step I e = some hub') :
    hub.Turn I p (I.strKey r) (hub.trail I (I.strKey r)) e (hub'.trail I (I.strKey r)) :=
  (step_moves hstep).turn hsingle h.foreign h.linked h.speaking

theorem Reachable.stage_step (h : Reachable I (Single I p r) hub)
    (hstage : (hub.trail I (I.strKey r)).Stage p) (hsingle : hub.Single I p r e)
    (hstep : hub.step I e = some hub') :
    (hub'.trail I (I.strKey r)).Judged p (hub.Clean I p (I.strKey r) e) := by
  refine hstage.turn rfl (h.linked.pending_none h.foreign) ?_ (I.sliceable_strKey r)
    (h.turn hsingle hstep)
  intro b hb
  have hpush := h.linked.isPush h.foreign hb
  exact ⟨hpush, h.pushWithin _ _ hb hpush⟩

theorem Fresh.trail_eq (h : hub.Fresh) :
    hub.trail I k = ⟨false, none, fun _ => .idle, fun _ => [], [], []⟩ := by
  simp [trail, h.heard, h.coordinator, h.handlers, h.queues, h.sent, h.commits, Coordinator.init,
    queueOf]

theorem Reachable.stage (h : Reachable I (Proper I p r) hub) :
    Reachable I (Single I p r) hub ∧ (hub.trail I (I.strKey r)).Stage p := by
  induction h with
  | start hfresh => exact ⟨.start hfresh, hfresh.trail_eq ▸ .unasked⟩
  | step _ hok hstep ih =>
    refine ⟨.step ih.1 hok.1 hstep, ?_⟩
    cases ih.1.stage_step ih.2 hok.1 hstep with
    | kept _ h => exact h
    | lost hunclean => exact absurd hok.2 hunclean

omit [DecidableEq K] in
theorem stage_answered {t : Trail K} (h : t.Stage p) (hasked : t.asked = true)
    (hfinished : t.Finished) : t.AnsweredOnce p := by
  obtain ⟨hbuffer, hquiet⟩ := hfinished
  cases h with
  | unasked => cases hasked
  | pushing => cases hbuffer
  | serving hstores =>
    obtain ⟨_, _, _, _, _, rfl⟩ := hstores
    simpa using (hquiet p).1
  | replying => simpa using (hquiet p).1
  | queued => simpa using (hquiet p).2
  | answered hagrees => exact ⟨_, rfl, hagrees⟩

/-- One step further in a run that uses the id `r` for one request. -/
def Follows (I : Interpreter K) (p r : String) (hub hub' : Hub K) : Prop :=
  ∃ e, hub.Single I p r e ∧ hub.step I e = some hub'

/-- A request that was missed once is never answered. -/
theorem missed_follows {hub₁ hub₂ : Hub K} (hreach : Reachable I (Single I p r) hub₁)
    (h : (hub₁.trail I (I.strKey r)).Missed p)
    (hrun : Relation.ReflTransGen (Follows I p r) hub₁ hub₂) :
    Reachable I (Single I p r) hub₂ ∧ (hub₂.trail I (I.strKey r)).Missed p := by
  induction hrun with
  | refl => exact ⟨hreach, h⟩
  | tail _ hlast ih =>
    obtain ⟨e, hsingle, hstep⟩ := hlast
    exact ⟨.step ih.1 hsingle hstep, ih.2.turn rfl (ih.1.turn hsingle hstep)⟩

/-- Clean runs answer the request once when they are done with it; after
a step that is not clean the request is never answered as it should be. -/
theorem store_answered (I : Interpreter K) (p r : String) :
    (∀ hub, Reachable I (Proper I p r) hub → (hub.trail I (I.strKey r)).asked = true →
      (hub.trail I (I.strKey r)).Finished → (hub.trail I (I.strKey r)).AnsweredOnce p) ∧
    ∀ hub e hub₁ hub₂, Reachable I (Proper I p r) hub → hub.Single I p r e →
      ¬ hub.Clean I p (I.strKey r) e → hub.step I e = some hub₁ →
      Relation.ReflTransGen (Follows I p r) hub₁ hub₂ →
      (hub₂.trail I (I.strKey r)).asked = true ∧ ¬ (hub₂.trail I (I.strKey r)).AnsweredOnce p := by
  constructor
  · intro hub hreach hasked hfinished
    exact stage_answered hreach.stage.2 hasked hfinished
  · intro hub e hub₁ hub₂ hreach hsingle hunclean hstep hrun
    obtain ⟨hsingles, hstage⟩ := hreach.stage
    cases hsingles.stage_step hstage hsingle hstep with
    | kept hclean => exact absurd hclean hunclean
    | lost _ hmissed =>
      have hfinal := (missed_follows (.step hsingles hsingle hstep) hmissed hrun).2
      exact ⟨hfinal.asked, hfinal.not_answered⟩

/-- The first StoreBlock with the id. -/
theorem Fresh.single (h : hub.Fresh) {msg : Message} (htype : msg.type = .storeBlock)
    (hid : reqIdOf msg = .str r) (now : Rat) : hub.Single I p r (.receive p msg now) := by
  refine ⟨fun _ _ => ⟨rfl, htype, hid, by rw [h.trail_eq]⟩, fun b => ⟨?_, ?_⟩⟩
  · intro habort
    rw [htype] at habort
    cases habort
  · intro _ hmem
    have hstale : staleBuffers now hub.coordinator = [] := by rw [h.coordinator]; rfl
    rw [hstale] at hmem
    cases hmem

/-- A chunk is no request and runs no collection. -/
theorem single_chunk {q : String} {msg : Message} (htype : msg.type = .blockChunk) (now : Rat) :
    hub.Single I p r (.receive q msg now) := by
  refine ⟨?_, fun b => ⟨?_, ?_⟩⟩
  · intro hreq
    simp [isRequest, htype] at hreq
  · intro habort
    rw [htype] at habort
    cases habort
  · rintro (⟨_, _, hheader⟩ | ⟨_, hheader⟩)
    · rw [hheader.data] at htype
      cases htype
    · rw [hheader.type] at htype
      cases htype

/-- What was changed for `p` alone and is back where it was. -/
theorem back_to {α : Type} {x : α} {f : String → α} {p : String} (hp : f p = x)
    (h : ∀ q, q ≠ p → f q = x) (q : String) : f q = x := by
  by_cases hq : q = p
  · rw [hq, hp]
  · exact h q hq

theorem finished_of_idle (hbuffer : hub.coordinator.buffers.get k = none)
    (hhandlers : ∀ q, hub.handlers q = .idle) (hqueues : ∀ q, hub.queues q = []) :
    (hub.trail I k).Finished :=
  ⟨hbuffer, fun q => by simp [trail, hhandlers q, hqueues q, queueOf]⟩

/-- A single frame with this key. -/
def frameWith (key : Value) : Message :=
  .ofFields .storeBlock [("req_id", .str "t"), ("data", .bin [7]), ("key", key)]

theorem store_answered_frame :
    ∃ hub, Reachable plainKeys (Proper plainKeys "p" "t") hub ∧ hub.commits.length = 1 ∧
      (hub.trail plainKeys (plainKeys.strKey "t")).AnsweredOnce "p" := by
  have hrun : ∃ hub₁ hub₂ hub₃ hub₄,
      twoStripes.step plainKeys (.receive "p" (frameWith .nil) 0) = some hub₁ ∧
      hub₁.step plainKeys (.serve "p" Shuffles.identity) = some hub₂ ∧
      hub₂.step plainKeys (.reply "p") = some hub₃ ∧
      hub₃.step plainKeys (.write "p" 0) = some hub₄ ∧
      (hub₁.trail plainKeys (plainKeys.strKey "t")).handlers "p"
        = .store (.str "t") false [7] .cache (.ok none) ∧
      (∀ m, (hub₃.queues "p")[0]? = some m → (m.2.transmit plainKeys.packer).isSome = true) ∧
      (hub₄.trail plainKeys (plainKeys.strKey "t")).asked = true ∧
      hub₄.coordinator.buffers.get (plainKeys.strKey "t") = none ∧
      (∀ q, hub₄.handlers q = .idle) ∧ (∀ q, hub₄.queues q = []) ∧ hub₄.commits.length = 1 := by
    refine ⟨_, _, _, _, rfl, rfl, rfl, rfl, rfl, ?_, rfl, rfl, back_to (p := "p") rfl fun q hq => ?_,
      back_to (p := "p") rfl fun q hq => ?_, rfl⟩
    · intro m hm
      cases hm
      rfl
    · exact (Function.update_of_ne hq ..).trans ((Function.update_of_ne hq ..).trans
        (Function.update_of_ne hq ..))
    · exact (Function.update_of_ne hq ..).trans (Function.update_of_ne hq ..)
  obtain ⟨hub₁, hub₂, hub₃, hub₄, hstep₁, hstep₂, hstep₃, hstep₄, hstore, hfits, hasked, hbuffer,
    hhandlers, hqueues, hcommits⟩ := hrun
  have hfirst : twoStripes.Proper plainKeys "p" "t" (.receive "p" (frameWith .nil) 0) := by
    refine ⟨Fresh.single (fresh_init _ _) rfl rfl 0, fun _ _ hraises => ?_, fun b hf => ?_⟩
    · exact absurd hraises.1 (by decide)
    · exact absurd hf.type (by decide)
  have hsecond : hub₁.Proper plainKeys "p" "t" (.serve "p" Shuffles.identity) := by
    refine ⟨trivial, ?_⟩
    intro reqId transfer data d key hsame
    rw [hstore] at hsame
    cases hsame
    exact fun hstrands => hstrands.2.2 rfl
  have hreach : Reachable plainKeys (Proper plainKeys "p" "t") hub₄ :=
    .step (e := .write "p" 0) (.step (e := .reply "p") (.step (.step (.start (fresh_init _ _)) hfirst
      hstep₁) hsecond hstep₂) ⟨trivial, trivial⟩ hstep₃) ⟨trivial, fun _ _ => hfits⟩ hstep₄
  exact ⟨hub₄, hreach, hcommits, (store_answered plainKeys "p" "t").1 hub₄ hreach hasked
    (finished_of_idle hbuffer hhandlers hqueues)⟩

/-- A chunk without a payload. -/
def emptyChunk : Message := .ofFields .blockChunk [("req_id", .str "t"), ("final", .bool true)]

/-- A malformed chunk ends the transfer of `p` and nothing is sent; the
block of a frame whose key has no hash is committed, and `p` gets a Nack. -/
theorem store_unanswered :
    (∃ hub, Reachable plainKeys (Single plainKeys "p" "t") hub ∧
      (hub.trail plainKeys (plainKeys.strKey "t")).asked = true ∧
      (hub.trail plainKeys (plainKeys.strKey "t")).Finished ∧
      (hub.trail plainKeys (plainKeys.strKey "t")).sent = []) ∧
    ∃ hub, Reachable plainKeys (Single plainKeys "p" "t") hub ∧
      (hub.trail plainKeys (plainKeys.strKey "t")).asked = true ∧
      (hub.trail plainKeys (plainKeys.strKey "t")).Finished ∧
      (∃ m, (hub.trail plainKeys (plainKeys.strKey "t")).sent = [("p", m)] ∧ m.type = .nack) ∧
      (hub.trail plainKeys (plainKeys.strKey "t")).commits.length = 1 := by
  refine ⟨⟨_, .step (e := .receive "p" emptyChunk 0)
    (opened_reachable (Fresh.single (fresh_init _ _) rfl rfl 0)) (single_chunk rfl 0) rfl, rfl,
    finished_of_idle rfl (back_to (p := "p") rfl fun q hq => ?_) (fun q => rfl), rfl⟩, ?_⟩
  · exact (Function.update_of_ne hq ..).trans (Function.update_of_ne hq ..)
  · have hrun : ∃ hub₁ hub₂ hub₃ hub₄,
        twoStripes.step plainKeys (.receive "p" (frameWith (.array [])) 0) = some hub₁ ∧
        hub₁.step plainKeys (.serve "p" Shuffles.identity) = some hub₂ ∧
        hub₂.step plainKeys (.reply "p") = some hub₃ ∧
        hub₃.step plainKeys (.write "p" 0) = some hub₄ ∧
        (hub₄.trail plainKeys (plainKeys.strKey "t")).asked = true ∧
        (hub₄.trail plainKeys (plainKeys.strKey "t")).Finished ∧
        (∃ m, (hub₄.trail plainKeys (plainKeys.strKey "t")).sent = [("p", m)] ∧ m.type = .nack) ∧
        (hub₄.trail plainKeys (plainKeys.strKey "t")).commits.length = 1 := by
      refine ⟨_, _, _, _, rfl, rfl, rfl, rfl, rfl, finished_of_idle rfl
        (back_to (p := "p") rfl fun q hq => ?_) (back_to (p := "p") rfl fun q hq => ?_), ⟨_, rfl, rfl⟩, rfl⟩
      · exact (Function.update_of_ne hq ..).trans ((Function.update_of_ne hq ..).trans
          (Function.update_of_ne hq ..))
      · exact (Function.update_of_ne hq ..).trans (Function.update_of_ne hq ..)
    obtain ⟨hub₁, hub₂, hub₃, hub₄, hstep₁, hstep₂, hstep₃, hstep₄, hrest⟩ := hrun
    have hserved : Reachable plainKeys (Single plainKeys "p" "t") hub₂ :=
      .step (e := .serve "p" Shuffles.identity)
        (.step (.start (fresh_init _ _)) (Fresh.single (fresh_init _ _) rfl rfl 0) hstep₁) trivial hstep₂
    exact ⟨hub₄, .step (e := .write "p" 0) (.step (e := .reply "p") hserved trivial hstep₃) trivial
      hstep₄, hrest⟩

end Hub

end Memnode.Replication
