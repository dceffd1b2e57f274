/-
Memnode.Replication.Requests — one StoreBlock request on its way
through the node.

The `Trail` of a request is all that the node has of it: a chunked
request fills its buffer, then a handler calls the BlockManager, then it
replies; the reply waits for the writer of the connection, which may end
before it is written. `Single` says that the run uses the id for one
StoreBlock of a peer that stays connected, and that the transfer is not
given up from outside (an abort, the collection of a stale buffer).

A step keeps the request on its way to one reply if it is `Clean`: the
header does not hit an exception, the chunk that ends the transfer is
well formed and comes from the peer that started it, the durability of a
transfer is one, `store` does not raise for a key without a hash, and the
writer of the peer's connection does not end before it has written the
reply.

`Move.turn` says what an event does to the trail: it is the StoreBlock, a
chunk for its buffer, a step of a handler that works for it or of a
writer that has its reply; or it changes nothing, and then it is clean.
-/
import Memnode.Replication.Isolation

namespace Memnode.Replication

open Lib Blocks

variable {K : Type} [DecidableEq K] {I : Interpreter K}

/-! ## Trails -/

/-- What the node has of one request. -/
structure Trail (K : Type) where
  /-- the request has been handled -/
  asked : Bool
  buffer : Option Buffer
  /-- the handlers that work for it; all others count as idle -/
  handlers : String → Handler K
  /-- the messages with its id that a writer can still write -/
  waiting : String → List (Int × Message)
  sent : List (String × Message)
  commits : List Commit

/-- The header of a transfer hits an exception: of `_gc_buffers`, or of
the text of a size that is not acceptable. -/
def HeaderRaises (I : Interpreter K) (now : Rat) (c : Coordinator K) (msg : Message) : Prop :=
  isChunked msg = true ∧
    if acceptable (totalSizeOf msg) then (gcBuffers I now c).2.2 = false
    else I.str (totalSizeOf msg) = none

/-- `store` does not raise for a transfer, and does not strand the block
of a single frame. -/
def CleanStore {cfg : Settings (KeyObject K)} (m : BlockManager cfg) (sh : Shuffles cfg.stripeCount)
    (transfer : Bool) (req : StoreReq (KeyObject K)) : Prop :=
  if transfer then ∀ text, (AnyKey.store m sh req).2 ≠ .error (.unhashable text)
  else ¬ AnyKey.Strands m sh req

namespace Hub

def trail (I : Interpreter K) (k : K) (hub : Hub K) : Trail K where
  asked := hub.heard.any (fun x => isRequest x.2 && reqKey I x.2 = some k)
  buffer := hub.coordinator.buffers.get k
  handlers q := (hub.handlers q).about I k
  waiting q := if hub.stopped q then [] else queueOf I k (hub.queues q)
  sent := hub.sent.filter (fun x => reqKey I x.2 = some k)
  commits := hub.commits.filter (fun x => I.key x.reqId = some k)

/-- The id `r` is used for one StoreBlock of `p`, which stays connected,
and the transfer is not given up from outside. -/
def Single (I : Interpreter K) (p r : String) (hub : Hub K) : Event K → Prop
  | .call _ _ reqId _ => reqId ≠ r
  | .gone q => q = p → hub.stopped p = true
  | .join q => q ≠ p
  | .receive q msg now =>
      (isRequest msg = true → I.key (reqIdOf msg) = some (I.strKey r) →
        q = p ∧ msg.type = .storeBlock ∧ reqIdOf msg = .str r ∧
          (hub.trail I (I.strKey r)).asked = false) ∧
      ∀ b, (msg.type = .streamAbort → ¬ Ends I hub.coordinator msg (I.strKey r) b) ∧
        (Collects I hub.coordinator msg →
          (I.strKey r, b) ∉ dropped I (staleBuffers now hub.coordinator))
  | _ => True

/-- The chunk that ends the transfer has a payload and comes from `p`,
and if it completes it the durability is one. -/
def CleanChunk (I : Interpreter K) (p : String) (k : K) (hub : Hub K) (q : String)
    (msg : Message) : Prop :=
  ∀ b, ChunkFor I hub.coordinator msg k b → ∃ chunk, chunkOf msg = some chunk ∧
    ((b.add chunk).overrun I = some true → q = p) ∧
    ((b.add chunk).overrun I = some false → isFinal msg = true → q = p ∧ b.deliverable = true)

/-- A step that keeps the request on its way to one reply. -/
def Clean (I : Interpreter K) (p : String) (k : K) (hub : Hub K) : Event K → Prop
  | .receive q msg now =>
      (msg.type = .storeBlock → I.key (reqIdOf msg) = some k →
        ¬ HeaderRaises I now hub.coordinator msg) ∧ hub.CleanChunk I p k q msg
  | .serve q sh => ∀ reqId transfer data d key,
      (hub.trail I k).handlers q = .store reqId transfer data d key →
      CleanStore hub.manager (sh hub.cfg.stripeCount) transfer ⟨data, d, keyObject key⟩
  -- `send_to` of the reply returns False
  | .gone q => q = p → (hub.trail I k).handlers p = .idle
  -- the writer of `p` ends where it has the reply
  | .write q i => q = p → (hub.trail I k).waiting p ≠ [] → ∀ m, (hub.queues p)[i]? = some m →
      (m.2.transmit I.packer).isSome = true
  | .stop q => q = p → (hub.trail I k).waiting p = []
  | _ => True

/-! ## The trail after an event -/

variable {hub hub' : Hub K} {e : Event K} {p q r : String} {k : K}

theorem handlers_update (I : Interpreter K) (k : K) (hub : Hub K) (q : String) (h : Handler K) :
    (fun q' => (Function.update hub.handlers q h q').about I k)
      = Function.update (hub.trail I k).handlers q (h.about I k) :=
  Function.comp_update (Handler.about I k) hub.handlers q h

theorem waiting_update (I : Interpreter K) (k : K) (hup : hub.stopped q = false)
    (ms : List (Int × Message)) :
    (fun q' => if hub.stopped q' then [] else queueOf I k (Function.update hub.queues q ms q'))
      = Function.update (hub.trail I k).waiting q (queueOf I k ms) := by
  funext q'
  by_cases hq : q' = q
  · subst hq
    simp [hup]
  · simp [trail, Function.update_of_ne hq]

/-- What waited for `q` cannot be written any more. -/
theorem trail_stop (I : Interpreter K) (k : K) (hub : Hub K) (q : String) :
    (hub.stop q).trail I k
      = { hub.trail I k with waiting := Function.update (hub.trail I k).waiting q [] } := by
  simp only [trail, stop, Trail.mk.injEq, true_and, and_true]
  funext q'
  by_cases hq : q' = q
  · simp [hq]
  · simp [Function.update_of_ne hq]

theorem trail_join (I : Interpreter K) (k : K) (hub : Hub K) (q : String) :
    (hub.join q).trail I k
      = { hub.trail I k with waiting := Function.update (hub.trail I k).waiting q [] } := by
  simp only [trail, join, Trail.mk.injEq, true_and, and_true]
  funext q'
  by_cases hq : q' = q
  · simp [hq, queueOf]
  · simp [Function.update_of_ne hq]

theorem trail_receive (I : Interpreter K) (k : K) (hub : Hub K) (q : String) (msg : Message)
    (now : Rat) :
    (hub.receive I q msg now).trail I k
      = { hub.trail I k with
          asked := (hub.trail I k).asked || (isRequest msg && reqKey I msg = some k)
          buffer := (handleMessage I now hub.coordinator q msg).coordinator.buffers.get k
          handlers := Function.update (hub.trail I k).handlers q
            ((handleMessage I now hub.coordinator q msg).next.about I k) } := by
  rw [← handlers_update]
  simp only [trail, receive, List.any_append, List.any_cons, List.any_nil, Bool.or_false]
  rfl

theorem trail_served (I : Interpreter K) (k : K) (hub : Hub K) (q : String) (s : Served hub.cfg) :
    Hub.trail I k { hub with
        manager := s.manager
        coordinator := { hub.coordinator with nextStream := s.nextStream }
        handlers := Function.update hub.handlers q s.next
        commits := hub.commits ++ hub.committed q s.committed }
      = { hub.trail I k with
          handlers := Function.update (hub.trail I k).handlers q (s.next.about I k)
          commits := (hub.trail I k).commits ++
            (hub.committed q s.committed).filter (fun x => I.key x.reqId = some k) } := by
  rw [← handlers_update]
  simp [trail, List.filter_append]

theorem trail_replied (I : Interpreter K) (k : K) (hup : hub.stopped q = false) (h : Handler K)
    (m : Int × Message) :
    Hub.trail I k { hub with
        handlers := Function.update hub.handlers q h
        queues := Function.update hub.queues q (hub.queues q ++ [m]) }
      = { hub.trail I k with
          handlers := Function.update (hub.trail I k).handlers q (h.about I k)
          waiting := Function.update (hub.trail I k).waiting q
            ((hub.trail I k).waiting q ++ queueOf I k [m]) } := by
  have hqueue : (hub.trail I k).waiting q ++ queueOf I k [m] = queueOf I k (hub.queues q ++ [m]) := by
    simp [trail, hup, queueOf, List.filter_append]
  rw [hqueue, ← handlers_update, ← waiting_update I k hup]
  rfl

/-- Nothing changes where nothing was. -/
theorem trail_idle (hidle : (hub.trail I k).handlers q = .idle) :
    { hub.trail I k with handlers := Function.update (hub.trail I k).handlers q .idle }
      = hub.trail I k := by
  rw [← hidle, Function.update_eq_self]

theorem trail_empty (hempty : (hub.trail I k).waiting q = []) :
    { hub.trail I k with waiting := Function.update (hub.trail I k).waiting q [] }
      = hub.trail I k := by
  rw [← hempty, Function.update_eq_self]

/-! ## Other events -/

/-- A message that neither is a request with this id nor reaches its
buffer leaves the trail alone. -/
theorem trail_receive_other {msg : Message} {now : Rat} (hidle : hub.handlers q = .idle)
    (hpending : hub.coordinator.pending.get k = none)
    (hreq : ¬ (isRequest msg = true ∧ I.key (reqIdOf msg) = some k))
    (htouches : ∀ b, ¬ Touches I now hub.coordinator msg k b) :
    (hub.receive I q msg now).trail I k = hub.trail I k := by
  have hbuffer : (handleMessage I now hub.coordinator q msg).coordinator.buffers.get k
      = hub.coordinator.buffers.get k := by
    have hopens : ¬ Opens I now hub.coordinator msg k := by
      rintro (⟨f, hopens⟩ | hopens)
      · exact absurd hopens.pending (by simp [hpending])
      · exact hreq ⟨by simp [isRequest, hopens.type], hopens.key⟩
    cases hb : hub.coordinator.buffers.get k with
    | some b => exact handled_buffer_kept hb (htouches b) hopens
    | none =>
      cases hb' : (handleMessage I now hub.coordinator q msg).coordinator.buffers.get k with
      | none => rfl
      | some b' =>
        rcases handled_buffer hb' with hold | ⟨b₀, _, hf, _⟩ | ⟨f, hpull, _⟩ | ⟨hheader, _⟩
        · rw [hb] at hold
          cases hold
        · exact absurd (.chunk hf) (htouches b₀)
        · exact absurd (Or.inl ⟨f, hpull⟩) hopens
        · exact absurd ⟨by simp [isRequest, hheader.type], hheader.key⟩ hreq
  have hnext : (handleMessage I now hub.coordinator q msg).next.about I k = .idle := by
    rw [handled_about]
    split
    · rename_i hkey
      rcases (handled_next I now hub.coordinator q msg).2 with heq | ⟨_, hr | ⟨k', b, hf⟩⟩
      · exact heq
      · exact absurd ⟨hr, hkey⟩ hreq
      · obtain rfl : k' = k := Option.some.inj (hf.key.symm.trans hkey)
        exact absurd (.chunk hf) (htouches b)
    · rfl
  have hasked : (isRequest msg && reqKey I msg = some k) = false := by
    rw [← Bool.not_eq_true, Bool.and_eq_true, decide_eq_true_eq]
    exact hreq
  rw [trail_receive, hbuffer, hnext, hasked, Bool.or_false]
  exact trail_idle (by simp [trail, hidle])

/-- No call of the node has this request id. -/
def Foreign (r : String) (hub : Hub K) : Prop := ∀ o ∈ hub.calls, o.reqId ≠ r

theorem Linked.pending_none (hlinked : hub.Linked I) (h : hub.Foreign r) :
    hub.coordinator.pending.get (I.strKey r) = none := by
  cases hf : hub.coordinator.pending.get (I.strKey r) with
  | none => rfl
  | some f =>
    obtain ⟨o, ho, hkey⟩ := (hlinked.pending hf).1
    exact absurd (I.strKey_injective hkey) (h o (List.mem_of_getElem? ho))

theorem Linked.isPush (hlinked : hub.Linked I) (h : hub.Foreign r) {b : Buffer}
    (hb : hub.coordinator.buffers.get (I.strKey r) = some b) : b.isPush = true := by
  unfold Buffer.isPush
  split
  · rfl
  · rename_i f hmode
    obtain ⟨o, ho, hkey⟩ := hlinked.buffers hb hmode
    exact absurd (I.strKey_injective hkey) (h o (List.mem_of_getElem? ho))

theorem Foreign.move (h : hub.Foreign r) (hmove : hub.Move I e hub') (hsingle : hub.Single I p r e) :
    hub'.Foreign r := by
  intro o' ho'
  obtain ⟨i, hi⟩ := List.getElem?_of_mem ho'
  rcases hmove.earlier hi with ⟨o, ho, hlater⟩ | ⟨_, _, _, _, _, timeout, rfl⟩
  · rw [hlater.reqId]
    exact h o (List.mem_of_getElem? ho)
  · exact hsingle

/-- Handlers only send messages with the request id they work for. -/
def Speaking (hub : Hub K) : Prop := ∀ q, (hub.handlers q).Names

omit [DecidableEq K] in
theorem Speaking.update {next : Handler K} (h : hub.Speaking) (hnext : next.Names) :
    ∀ q', (Function.update hub.handlers q next q').Names := by
  intro q'
  by_cases heq : q' = q
  · subst heq
    rw [Function.update_self]
    exact hnext
  · rw [Function.update_of_ne heq]
    exact h q'

theorem Speaking.move (h : hub.Speaking) (hmove : hub.Move I e hub') : hub'.Speaking := by
  cases hmove with
  | out =>
    unfold Hub.out
    split <;> exact h
  | @received peer _ msg now => exact h.update (handled_next I now hub.coordinator peer msg).1
  | served hserve => exact h.update (serve_names hserve)
  | replied hsend =>
    refine h.update (Handler.names_sending ?_)
    intro x hx
    exact h _ _ _ _ hsend x (List.mem_cons_of_mem _ hx)
  | gone => exact h.update (Handler.names_of_ne (by simp))
  | _ => exact h

theorem Reachable.speaking {ok : Hub K → Event K → Prop} (h : Reachable I ok hub) :
    hub.Speaking := by
  refine Reachable.invariant (I := I) (P := Hub.Speaking) ?_ ?_ h
  · intro hub hfresh q
    rw [hfresh.handlers q]
    exact Handler.names_of_ne (by simp)
  · intro hub hub' e ih _ hmove
    exact ih.move hmove

/-- A call of the node ends. -/
theorem trail_finish (hforeign : hub.Foreign r) {i : Nat} {o : Outgoing}
    (ho : hub.calls[i]? = some o) (x : Returned) :
    (hub.finish I i o x).trail I (I.strKey r) = hub.trail I (I.strKey r) := by
  have hne : I.strKey r ≠ I.strKey o.reqId := fun hkey =>
    hforeign o (List.mem_of_getElem? ho) (I.strKey_injective hkey.symm)
  unfold trail finish cleanUp
  cases o.ask <;> simp [Dict.get_erase, hne]

/-! ## Turns -/

/-- The trail `t` of a request of `p` after an event. -/
inductive Turn (I : Interpreter K) (p : String) (k : K) (hub : Hub K) (t : Trail K) :
    Event K → Trail K → Prop where
  | same {e : Event K} (hclean : hub.Clean I p k e) : Turn I p k hub t e t
  | request {msg : Message} {now : Rat} (htype : msg.type = .storeBlock)
      (hnamed : reqIdOf msg ≠ .nil) (hkey : I.key (reqIdOf msg) = some k)
      (hnew : t.asked = false) :
      Turn I p k hub t (.receive p msg now)
        { t with
          asked := true
          buffer := (handleMessage I now hub.coordinator p msg).coordinator.buffers.get k
          handlers := Function.update t.handlers p
            (handleMessage I now hub.coordinator p msg).next }
  | chunk {q : String} {msg : Message} {now : Rat} {b : Buffer}
      (hf : ChunkFor I hub.coordinator msg k b) :
      Turn I p k hub t (.receive q msg now)
        { t with
          buffer := (handleMessage I now hub.coordinator q msg).coordinator.buffers.get k
          handlers := Function.update t.handlers q
            (handleMessage I now hub.coordinator q msg).next }
  | served {q : String} {sh : (stripes : Nat) → Shuffles stripes} {s : Served hub.cfg}
      (hserve : (t.handlers q).serve hub.chunking hub.coordinator.nextStream hub.manager
        (sh hub.cfg.stripeCount) = some s) (hq : t.handlers q = hub.handlers q) :
      Turn I p k hub t (.serve q sh)
        { t with
          handlers := Function.update t.handlers q s.next
          commits := t.commits ++ hub.committed q s.committed }
  | replied {q : String} {reqId : Value} {m : Int × Message} {rest : List (Int × Message)}
      (hsend : t.handlers q = .send reqId m rest) :
      Turn I p k hub t (.reply q)
        { t with
          handlers := Function.update t.handlers q (.sending reqId rest)
          waiting := Function.update t.waiting q (t.waiting q ++ [m]) }
  | gone {q : String} {reqId : Value} {m : Int × Message} {rest : List (Int × Message)}
      (hsend : t.handlers q = .send reqId m rest) :
      Turn I p k hub t (.gone q) { t with handlers := Function.update t.handlers q .idle }
  | wrote {q : String} {i : Nat} {m : Int × Message} {ms ms' : List (Int × Message)}
      (hclean : hub.Clean I p k (.write q i)) (hqueue : t.waiting q = ms ++ m :: ms') :
      Turn I p k hub t (.write q i)
        { t with
          waiting := Function.update t.waiting q (ms ++ ms')
          sent := t.sent ++ [(q, m.2)] }
  | dropped {e : Event K} {q : String} (hclean : q = p → ¬ hub.Clean I p k e)
      (hqueue : t.waiting q ≠ []) :
      Turn I p k hub t e { t with waiting := Function.update t.waiting q [] }

theorem turn_receive {msg : Message} {now : Rat} (hidle : hub.handlers q = .idle)
    (hpending : hub.coordinator.pending.get (I.strKey r) = none)
    (hsingle : hub.Single I p r (.receive q msg now)) :
    hub.Turn I p (I.strKey r) (hub.trail I (I.strKey r)) (.receive q msg now)
      ((hub.receive I q msg now).trail I (I.strKey r)) := by
  obtain ⟨hrequest, hends⟩ := hsingle
  by_cases hreq : isRequest msg = true ∧ I.key (reqIdOf msg) = some (I.strKey r)
  · obtain ⟨rfl, htype, hid, hnew⟩ := hrequest hreq.1 hreq.2
    have hkey : reqKey I msg = some (I.strKey r) := hreq.2
    rw [trail_receive, handled_about, if_pos hreq.2, hreq.1, hkey]
    simp only [decide_true, Bool.and_true, Bool.or_true]
    exact .request htype (by simp [hid]) hreq.2 hnew
  by_cases htouches : ∃ b, Touches I now hub.coordinator msg (I.strKey r) b
  · obtain ⟨b, hf⟩ : ∃ b, ChunkFor I hub.coordinator msg (I.strKey r) b := by
      obtain ⟨b, htouches⟩ := htouches
      cases htouches with
      | chunk hf => exact ⟨b, hf⟩
      | ends he =>
        rcases he.cause with htype | ⟨htype, hnamed, _⟩
        · exact absurd he ((hends b).1 htype)
        · exact ⟨b, htype, hnamed, he.key, he.buffer⟩
      | stale hc he => exact absurd he ((hends b).2 hc)
    have hno : isRequest msg = false := by simp [isRequest, hf.type]
    rw [trail_receive, handled_about, if_pos hf.key, hno, Bool.false_and, Bool.or_false]
    exact .chunk hf
  · have hnone : ∀ b, ¬ Touches I now hub.coordinator msg (I.strKey r) b :=
      fun b hb => htouches ⟨b, hb⟩
    rw [trail_receive_other hidle hpending hreq hnone]
    refine .same ⟨fun htype hkey => ?_, fun b hf => absurd (.chunk hf) (hnone b)⟩
    exact absurd ⟨by simp [isRequest, htype], hkey⟩ hreq

theorem turn_served {sh : (stripes : Nat) → Shuffles stripes} {s : Served hub.cfg}
    (hserve : (hub.handlers q).serve hub.chunking hub.coordinator.nextStream hub.manager
      (sh hub.cfg.stripeCount) = some s) :
    hub.Turn I p k (hub.trail I k) (.serve q sh) (Hub.trail I k { hub with
      manager := s.manager
      coordinator := { hub.coordinator with nextStream := s.nextStream }
      handlers := Function.update hub.handlers q s.next
      commits := hub.commits ++ hub.committed q s.committed }) := by
  obtain ⟨reqId, hid, hnext⟩ := serve_reqId hserve
  have hcommitted : ∀ x ∈ hub.committed q s.committed, x.reqId = reqId := by
    intro x hx
    obtain ⟨reqId', transfer, data, d, key, hstore, rfl⟩ := mem_committed hx
    rw [hstore] at hid
    exact Option.some.inj hid
  have hq : (hub.trail I k).handlers q = if I.key reqId = some k then hub.handlers q else .idle :=
    about_of_reqId I (Or.inr hid) k
  rw [trail_served, about_of_reqId I hnext]
  by_cases hkey : I.key reqId = some k
  · rw [if_pos hkey] at hq ⊢
    rw [List.filter_eq_self.mpr (fun x hx => by simpa [hcommitted x hx] using hkey)]
    exact .served (hq ▸ hserve) hq
  · rw [if_neg hkey] at hq ⊢
    rw [List.filter_eq_nil_iff.mpr (fun x hx => by simpa [hcommitted x hx] using hkey),
      List.append_nil, trail_idle hq]
    refine .same ?_
    intro reqId' transfer data d key hstore
    rw [hq] at hstore
    cases hstore

theorem turn_replied (hspeaking : hub.Speaking) {reqId : Value} {m : Int × Message}
    {rest : List (Int × Message)} (hsend : hub.handlers q = .send reqId m rest)
    (hup : hub.stopped q = false) :
    hub.Turn I p k (hub.trail I k) (.reply q) (Hub.trail I k { hub with
      handlers := Function.update hub.handlers q (.sending reqId rest)
      queues := Function.update hub.queues q (hub.queues q ++ [m]) }) := by
  have hm : reqKey I m.2 = I.key reqId :=
    congrArg I.key (hspeaking q reqId m rest hsend m (List.mem_cons_self ..))
  have hq : (hub.trail I k).handlers q = if I.key reqId = some k then hub.handlers q else .idle :=
    about_of_reqId I (Or.inr (by rw [hsend]; rfl)) k
  rw [trail_replied I k hup, about_of_reqId I (sending_reqId reqId rest)]
  by_cases hkey : I.key reqId = some k
  · rw [if_pos hkey] at hq ⊢
    rw [show queueOf I k [m] = [m] by simp [queueOf, hm, hkey]]
    exact .replied (hq.trans hsend)
  · rw [if_neg hkey] at hq ⊢
    rw [show queueOf I k [m] = [] by simp [queueOf, hm, hkey], List.append_nil,
      Function.update_eq_self, trail_idle hq]
    exact .same trivial

theorem turn_gone {reqId : Value} {m : Int × Message} {rest : List (Int × Message)}
    (hsend : hub.handlers q = .send reqId m rest) :
    hub.Turn I p k (hub.trail I k) (.gone q)
      (Hub.trail I k { hub with handlers := Function.update hub.handlers q .idle }) := by
  have hq : (hub.trail I k).handlers q = if I.key reqId = some k then hub.handlers q else .idle :=
    about_of_reqId I (Or.inr (by rw [hsend]; rfl)) k
  have htrail : Hub.trail I k { hub with handlers := Function.update hub.handlers q .idle }
      = { hub.trail I k with handlers := Function.update (hub.trail I k).handlers q .idle } :=
    congrArg (fun h => { hub.trail I k with handlers := h }) (handlers_update I k hub q .idle)
  rw [htrail]
  by_cases hkey : I.key reqId = some k
  · rw [if_pos hkey] at hq
    exact .gone (hq.trans hsend)
  · rw [if_neg hkey] at hq
    rw [trail_idle hq]
    refine .same ?_
    rintro rfl
    exact hq

theorem turn_wrote {i : Nat} {m : Int × Message} (hup : hub.stopped q = false)
    (hm : (hub.queues q)[i]? = some m) (hfits : m.2.transmit I.packer = some m.2) :
    hub.Turn I p k (hub.trail I k) (.write q i) (Hub.trail I k { hub with
      queues := Function.update hub.queues q ((hub.queues q).eraseIdx i)
      sent := hub.sent ++ [(q, m.2)] }) := by
  have hclean : hub.Clean I p k (.write q i) := by
    rintro rfl _ m' hm'
    obtain rfl := Option.some.inj (hm.symm.trans hm')
    rw [hfits]
    rfl
  have hbefore : (hub.trail I k).waiting q = queueOf I k ((hub.queues q).take i) ++
      queueOf I k [m] ++ queueOf I k ((hub.queues q).drop (i + 1)) := by
    simp only [trail, hup, Bool.false_eq_true, if_false]
    conv_lhs => rw [outbox_split hm]
    simp [queueOf, ← List.filter_append]
  have hafter : queueOf I k ((hub.queues q).eraseIdx i)
      = queueOf I k ((hub.queues q).take i) ++ queueOf I k ((hub.queues q).drop (i + 1)) := by
    rw [List.eraseIdx_eq_take_drop_succ]
    exact List.filter_append ..
  have htrail : Hub.trail I k { hub with
        queues := Function.update hub.queues q ((hub.queues q).eraseIdx i)
        sent := hub.sent ++ [(q, m.2)] }
      = { hub.trail I k with
          waiting := Function.update (hub.trail I k).waiting q
            (queueOf I k ((hub.queues q).eraseIdx i))
          sent := (hub.trail I k).sent ++ if reqKey I m.2 = some k then [(q, m.2)] else [] } := by
    rw [← waiting_update I k hup]
    simp [trail, List.filter_append, List.filter_cons]
  rw [htrail, hafter]
  by_cases hkey : reqKey I m.2 = some k
  · rw [show queueOf I k [m] = [m] by simp [queueOf, hkey], List.append_assoc] at hbefore
    rw [if_pos hkey]
    exact .wrote hclean hbefore
  · rw [show queueOf I k [m] = [] by simp [queueOf, hkey], List.append_nil] at hbefore
    rw [if_neg hkey, List.append_nil, ← hbefore, Function.update_eq_self]
    exact .same hclean

theorem turn_stop (he : e = .stop q ∨ ∃ i m, e = .write q i ∧ hub.stopped q = false ∧
      (hub.queues q)[i]? = some m ∧ m.2.transmit I.packer = none) :
    hub.Turn I p k (hub.trail I k) e ((hub.stop q).trail I k) := by
  rw [trail_stop]
  by_cases hempty : (hub.trail I k).waiting q = []
  · rw [trail_empty hempty]
    refine .same ?_
    rcases he with rfl | ⟨i, m, rfl, _⟩
    · rintro rfl
      exact hempty
    · rintro rfl hne
      exact absurd hempty hne
  · refine .dropped ?_ hempty
    rintro rfl hclean
    rcases he with rfl | ⟨i, m, rfl, _, hm, hnone⟩
    · exact hempty (hclean rfl)
    · have hsome := hclean rfl hempty m hm
      rw [hnone] at hsome
      cases hsome

/-- **What an event does to the trail of a request.** -/
theorem Move.turn (hmove : hub.Move I e hub') (hsingle : hub.Single I p r e)
    (hforeign : hub.Foreign r) (hlinked : hub.Linked I) (hspeaking : hub.Speaking) :
    hub.Turn I p (I.strKey r) (hub.trail I (I.strKey r)) e (hub'.trail I (I.strKey r)) := by
  cases hmove with
  | out =>
    unfold Hub.out
    split <;> exact .same trivial
  | finished he ho x =>
    rw [trail_finish hforeign ho x]
    refine .same ?_
    cases e <;> first | exact trivial | cases he
  | received hidle msg now => exact turn_receive hidle (hlinked.pending_none hforeign) hsingle
  | served hserve => exact turn_served hserve
  | replied hsend hup => exact turn_replied hspeaking hsend hup
  | gone hsend => exact turn_gone hsend
  | wrote hup hm hfits => exact turn_wrote hup hm hfits
  | stopped he => exact turn_stop he
  | joined q =>
    rw [trail_join]
    by_cases hempty : (hub.trail I (I.strKey r)).waiting q = []
    · rw [trail_empty hempty]
      exact .same trivial
    · exact .dropped (fun hq => absurd hq hsingle) hempty
  | _ => exact .same trivial

end Hub

end Memnode.Replication
