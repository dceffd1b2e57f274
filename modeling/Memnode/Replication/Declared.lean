/-
Memnode.Replication.Declared — transfers and the sizes their headers
declare.

A transfer is complete when a chunk says so: `_handle_chunk` refuses
more bytes than the header declared, and takes fewer if the chunk is
marked final. So the bytes that reach the BlockManager, or a waiting
`load_remote`, are as many as declared in the runs whose final chunks
are exact, and a final chunk that is not exact hands over a different
number (`declared_exact`).

  §1 what a message hands over (`handled_store`);
  §2 pushes: the handler and the commits;
  §3 pulls: from the buffer to the future to the result;
  §4 runs.
-/
import Memnode.Replication.Futures

namespace Memnode.Replication

open Lib Blocks

variable {K : Type} [DecidableEq K] {I : Interpreter K}

/-! ## §1 What is handed over -/

/-- The bytes of a complete buffer go on: a pull always, a push if its
durability is one. -/
def Buffer.deliverable (b : Buffer) : Bool :=
  match b.mode with
  | .store durability _ => (durabilityOf durability).isSome
  | .pull _ => true

section Handled

variable {now : Rat} {c : Coordinator K} {peer : String} {msg : Message}

/-- A handler that commits a transfer has its final chunk. -/
theorem handled_store {reqId : Value} {data : Bytes} {d : Durability}
    {key : Except String (Option K)}
    (hnext : (handleMessage I now c peer msg).next = .store reqId true data d key) :
    ∃ k b chunk dv kv, Completes I c msg k b chunk ∧ b.mode = .store dv kv ∧
      durabilityOf dv = some d ∧ key = keyArgument I kv ∧ reqId = reqIdOf msg ∧
      data = (b.add chunk).assemble := by
  generalize hh : handleMessage I now c peer msg = h at hnext
  have heffect : Effect I now c peer msg h := hh ▸ handleMessage_effect I now c peer msg
  cases heffect with
  | quiet next hstarts => exact absurd hnext (hstarts.plain _ _ _ _)
  | collected _ _ next hstarts => exact absurd hnext (hstarts.plain _ _ _ _)
  | overran =>
    unfold afterOverrun at hnext
    split at hnext
    · split at hnext <;> cases hnext
    · cases hnext
  | @completed k b hf chunk hchunk hover hfinal =>
    unfold completeTransfer at hnext
    split at hnext
    · cases hnext
    · rename_i dv kv hmode
      split at hnext
      · cases hnext
      · rename_i d' hd
        cases hnext
        exact ⟨k, b, chunk, dv, kv, ⟨hf, hchunk, hover, hfinal⟩, hmode, hd, rfl, rfl, rfl⟩
  | _ => cases hnext

/-- A message hands these bytes to the BlockManager or to a future. -/
def Delivers (h : Handled K) (data : Bytes) : Prop :=
  (∃ reqId d key, h.next = .store reqId true data d key) ∨ ∃ f, (f, .pulled data) ∈ h.resolved

/-- The final chunk of a deliverable buffer hands over what it holds. -/
theorem Completes.delivers {k : K} {b : Buffer} {chunk : Bytes} (h : Completes I c msg k b chunk)
    (hb : b.deliverable = true) :
    Delivers (handleMessage I now c peer msg) (b.add chunk).assemble := by
  rw [handleMessage_chunk I now peer h.toChunkFor h.payload, h.within]
  simp only [h.final, if_true, completeTransfer]
  unfold Buffer.deliverable at hb
  have hmode : (b.add chunk).mode = b.mode := rfl
  rw [hmode]
  split
  · rename_i f _
    exact Or.inr ⟨f, by simp⟩
  · rename_i dv kv hstore
    rw [hstore] at hb
    obtain ⟨d, hd⟩ := Option.isSome_iff_exists.mp hb
    simp only [hd]
    exact Or.inl ⟨_, d, _, rfl⟩

/-- A chunk that exceeds the declared size ends its transfer and hands
over nothing. -/
theorem ChunkFor.overruns {k : K} {b : Buffer} {chunk : Bytes} (h : ChunkFor I c msg k b)
    (hchunk : chunkOf msg = some chunk) (hover : (b.add chunk).overrun I = some true) :
    (handleMessage I now c peer msg).coordinator.buffers.get k = none ∧
      ∀ data, ¬ Delivers (handleMessage I now c peer msg) data := by
  rw [handleMessage_chunk I now peer h hchunk, hover]
  refine ⟨by simp, ?_⟩
  intro data hdelivers
  dsimp only [afterOverrun] at hdelivers
  split at hdelivers
  · split at hdelivers <;> simp [Delivers, Handler.sending] at hdelivers
  · simp [Delivers, Handled.ended] at hdelivers

end Handled

namespace Hub

theorem declaredFor_eq {c : Coordinator K} {msg : Message} {k : K} {b : Buffer}
    (h : ChunkFor I c msg k b) : declaredFor I c msg = b.totalSize := by
  simp [declaredFor, h.key, h.buffer]

/-- The final chunk of a deliverable buffer makes it as long as declared. -/
def FinalExact (I : Interpreter K) (hub : Hub K) : Event K → Prop
  | .receive _ msg _ => ∀ k b chunk, Completes I hub.coordinator msg k b chunk →
      b.deliverable = true → b.totalSize.asInt = some ((b.add chunk).received : Int)
  | _ => True

end Hub

/-! ## §2 Pushes -/

omit [DecidableEq K] in
theorem afterStore_plain (reqId : Value) (transfer : Bool) (res : Except StoreFailure BlockId) :
    (afterStore reqId transfer res : Handler K).Plain := by
  unfold afterStore
  split
  · exact Handler.plain_sending _ _
  · exact Handler.plain_sending _ _
  · split
    · exact Handler.plain_idle
    · exact Handler.plain_sending _ _

theorem serve_plain {cfg : Settings (KeyObject K)} {ch : Chunking} {stream : Nat}
    {m : BlockManager cfg} {sh : Shuffles cfg.stripeCount} {h : Handler K} {r : Served cfg}
    (hr : h.serve ch stream m sh = some r) : r.next.Plain := by
  rcases serve_cases hr with ⟨reqId, transfer, data, d, key, _, hnext, _⟩ | ⟨_, _, reqId, ms, _, hms, _⟩
  · rw [hnext]
    exact afterStore_plain _ _ _
  · rw [hms]
    exact Handler.plain_sending _ _

namespace Hub

variable {hub hub' : Hub K} {e : Event K}

/-- What is known of every transfer on its way to the BlockManager and
of every one that was committed: its peer, request id, declared size and
bytes. -/
structure Transfers (Q : String → Value → Value → Bytes → Prop) (hub : Hub K) : Prop where
  working : ∀ p reqId data d key, hub.handlers p = .store reqId true data d key →
    Q p reqId (hub.declared p) data
  commits : ∀ x ∈ hub.commits, x.transfer = true → Q x.peer x.reqId x.declared x.data

omit [DecidableEq K] in
theorem Transfers.mono {Q Q' : String → Value → Value → Bytes → Prop} (h : hub.Transfers Q)
    (hQ : ∀ p reqId total data, Q p reqId total data → Q' p reqId total data) :
    hub.Transfers Q' :=
  ⟨fun p reqId data d key hp => hQ _ _ _ _ (h.working p reqId data d key hp),
    fun x hx ht => hQ _ _ _ _ (h.commits x hx ht)⟩

omit [DecidableEq K] in
theorem mem_committed {p : String} {block : Option BlockId} {x : Commit}
    (hx : x ∈ hub.committed p block) : ∃ reqId transfer data d key,
      hub.handlers p = .store reqId transfer data d key ∧
        x = ⟨p, reqId, transfer, if transfer then hub.declared p else .nil, data⟩ := by
  unfold committed at hx
  split at hx
  · unfold Handler.commit at hx
    split at hx
    · rename_i reqId transfer data d key hstore
      exact ⟨reqId, transfer, data, d, key, hstore, by simpa using hx⟩
    · cases hx
  · cases hx

/-- It is enough to know it of every final chunk. -/
theorem Transfers.move {Q : String → Value → Value → Bytes → Prop} (h : hub.Transfers Q)
    (hmove : hub.Move I e hub')
    (hfinal : ∀ peer msg now, e = .receive peer msg now → hub' = hub.receive I peer msg now →
      ∀ k b chunk, Completes I hub.coordinator msg k b chunk → b.isPush = true →
      b.deliverable = true →
      Q peer (reqIdOf msg) b.totalSize (b.add chunk).assemble) : hub'.Transfers Q := by
  -- a handler that is set to something else than a commit
  have hplain : ∀ {p : String} {next : Handler K}, next.Plain → ∀ q reqId data d key,
      Function.update hub.handlers p next q = .store reqId true data d key →
      Q q reqId (hub.declared q) data := by
    intro p next hnext q reqId data d key hq
    by_cases hqp : q = p
    · subst hqp
      rw [Function.update_self] at hq
      exact absurd hq (hnext _ _ _ _)
    · rw [Function.update_of_ne hqp] at hq
      exact h.working q reqId data d key hq
  cases hmove with
  | out =>
    unfold Hub.out
    split <;> exact ⟨h.working, h.commits⟩
  | @received peer _ msg now =>
    refine ⟨?_, h.commits⟩
    intro q reqId data d key hq
    simp only [receive] at hq ⊢
    by_cases hqp : q = peer
    · subst hqp
      rw [Function.update_self] at hq
      obtain ⟨k, b, chunk, dv, kv, hc, hmode, hd, _, rfl, rfl⟩ := handled_store hq
      rw [Function.update_self, declaredFor_eq hc.toChunkFor]
      exact hfinal q msg now rfl rfl k b chunk hc (by simp [Buffer.isPush, hmode])
        (by simp [Buffer.deliverable, hmode, hd])
    · rw [Function.update_of_ne hqp] at hq ⊢
      exact h.working q reqId data d key hq
  | @served peer _ r hserve =>
    refine ⟨hplain (serve_plain hserve), ?_⟩
    intro x hx ht
    rcases List.mem_append.mp hx with hx | hx
    · exact h.commits x hx ht
    · obtain ⟨reqId, transfer, data, d, key, hstore, rfl⟩ := mem_committed hx
      simp only at ht
      subst ht
      exact h.working peer reqId data d key hstore
  | replied => exact ⟨hplain (Handler.plain_sending _ _), h.commits⟩
  | gone => exact ⟨hplain Handler.plain_idle, h.commits⟩
  | _ => exact ⟨h.working, h.commits⟩

/-- The node has handled a StoreBlock header with this request id and
this declared size. -/
def Announced (I : Interpreter K) (hub : Hub K) (k : Option K) (total : Value) : Prop :=
  ∃ x ∈ hub.heard, x.2.type = .storeBlock ∧ isChunked x.2 = true ∧
    I.key (reqIdOf x.2) = k ∧ totalSizeOf x.2 = total

theorem Announced.move {k : Option K} {total : Value} (h : hub.Announced I k total)
    (hmove : hub.Move I e hub') : hub'.Announced I k total := by
  obtain ⟨x, hx, hrest⟩ := h
  refine ⟨x, ?_, hrest⟩
  rcases hmove.quiet with ⟨peer, msg, now, _, rfl⟩ | hquiet
  · exact List.mem_append_left _ hx
  · rw [hquiet.heard]
    exact hx

/-- The buffer of a push has the size of its header. -/
theorem Reachable.announced {ok : Hub K → Event K → Prop} (h : Reachable I ok hub) :
    ∀ k b, hub.coordinator.buffers.get k = some b → b.isPush = true →
      hub.Announced I (some k) b.totalSize := by
  refine Reachable.invariant (I := I) (P := fun hub => ∀ k b,
    hub.coordinator.buffers.get k = some b → b.isPush = true →
      hub.Announced I (some k) b.totalSize) ?_ ?_ h
  · intro hub hfresh k b hb
    simp [hfresh.coordinator, Coordinator.init] at hb
  · intro hub hub' e ih _ hmove
    rcases hmove.quiet with ⟨peer, msg, now, rfl, rfl⟩ | hquiet
    · refine handled_buffers (P := fun k b => b.isPush = true →
        (hub.receive I peer msg now).Announced I (some k) b.totalSize) ?_ ?_ ?_ ?_
      · intro k b hb hpush
        exact (ih k b hb hpush).move hmove
      · intro k f _ hpush
        cases hpush
      · intro k hheader _
        exact ⟨(peer, msg), by simp [receive], hheader.type, hheader.chunked, hheader.key, rfl⟩
      · intro k b chunk _ _ _ hb hpush
        exact hb hpush
    · intro k b hb hpush
      exact (ih k b (hquiet.buffer_get hb) hpush).move hmove

end Hub

/-! ## §3 Pulls -/

/-- The reply of a call declares this size. -/
def Outgoing.Declares (o : Outgoing) (total : Value) : Prop :=
  ∃ m, o.reply = some m ∧ totalSizeOf m = total

/-- The reply of a call declares as many bytes as `data` has. -/
def Outgoing.Sized (o : Outgoing) (data : Bytes) : Prop :=
  ∃ m, o.reply = some m ∧ (totalSizeOf m).asInt = some (data.length : Int)

theorem Outgoing.Declares.later {o o' : Outgoing} {total : Value} (h : o.Declares total)
    (hlater : o.Later o') (hask : o.ask ≠ .free) : o'.Declares total := by
  obtain ⟨m, hm, htotal⟩ := h
  exact ⟨m, hlater.reply hask m hm, htotal⟩

theorem Outgoing.Sized.later {o o' : Outgoing} {data : Bytes} (h : o.Sized data)
    (hlater : o.Later o') (hask : o.ask ≠ .free) : o'.Sized data := by
  obtain ⟨m, hm, htotal⟩ := h
  exact ⟨m, hlater.reply hask m hm, htotal⟩

namespace Hub

variable {hub hub' : Hub K} {e : Event K}

/-- What is known of a call that gets a chunked reply: while the buffer
is open the reply has its declared size, and bytes that came through the
buffer are as many as the reply declares. `free_remote` never looks at
its pull. -/
structure Pulls (hub : Hub K) : Prop where
  headers : ∀ {k b f} {o : Outgoing}, hub.coordinator.buffers.get k = some b →
    b.mode = .pull f → hub.calls[f]? = some o → o.ask ≠ .free → o.Declares b.totalSize
  pulled : ∀ {i : Nat} {o : Outgoing} {data}, hub.calls[i]? = some o → o.ask ≠ .free →
    o.pull = some (.ok data) → o.Sized data
  loaded : ∀ {i : Nat} {o : Outgoing} {data}, hub.calls[i]? = some o →
    o.stand = .over (.result (.loaded (some data))) →
    o.ask = .load ∧ ∃ m, o.reply = some m ∧ (announcesChunks m = true → o.Sized data)

/-- The reply of a call whose buffer a message has just opened. -/
theorem opened_declares (hlinked : hub.Linked I) {peer : String} {msg : Message} {now : Rat}
    {k : K} {f : Nat} {o : Outgoing} (h : OpensPull I now hub.coordinator msg k f)
    (ho : (hub.receive I peer msg now).calls[f]? = some o) : o.Declares (totalSizeOf msg) := by
  obtain ⟨c', rs, hgc, heq⟩ := h.handled peer
  have hresolved : (f, .reply msg) ∈ (handleMessage I now hub.coordinator peer msg).resolved := by
    simp [heq]
  rw [calls_receive] at ho
  obtain ⟨x, hx, rfl⟩ := Option.map_eq_some_iff.mp ho
  obtain ⟨m, hm⟩ := Outgoing.settle_replied (o := x) hresolved
  refine ⟨m, hm, ?_⟩
  rcases Outgoing.of_settle_reply hm with hold | hnew
  · rw [(hlinked.pending h.pending).2 x hx] at hold
    cases hold
  · rw [(handled_resolved hnew).1]

theorem Pulls.headers_move (h : hub.Pulls) (hlinked : hub.Linked I) (hmove : hub.Move I e hub') :
    ∀ k b, hub'.coordinator.buffers.get k = some b → ∀ f (o : Outgoing), b.mode = .pull f →
      hub'.calls[f]? = some o → o.ask ≠ .free → o.Declares b.totalSize := by
  -- a buffer that was there before
  have hold : ∀ k b, hub.coordinator.buffers.get k = some b → ∀ f (o : Outgoing),
      b.mode = .pull f → hub'.calls[f]? = some o → o.ask ≠ .free → o.Declares b.totalSize := by
    intro k b hb f o hmode ho hask
    obtain ⟨x, hx, _⟩ := hlinked.buffers hb hmode
    obtain ⟨o', ho', hlater⟩ := hmove.later hx
    rw [ho] at ho'
    obtain rfl := Option.some.inj ho'
    have hxask : x.ask ≠ .free := by
      rw [← hlater.ask]
      exact hask
    exact (h.headers hb hmode hx hxask).later hlater hxask
  rcases hmove.quiet with ⟨peer, msg, now, rfl, rfl⟩ | hquiet
  · refine handled_buffers hold ?_ ?_ ?_
    · intro k f hopens f' o hmode ho _
      cases hmode
      exact opened_declares hlinked hopens ho
    · intro k _ f o hmode
      cases hmode
    · intro k b chunk _ _ _ hb f o hmode
      exact hb f o hmode
  · intro k b hb
    exact hold k b (hquiet.buffer_get hb)

/-- The bytes of a pull come from a final chunk. -/
theorem Pulls.pulled_move (h : hub.Pulls)
    (hcounted : ∀ k b, hub.coordinator.buffers.get k = some b → b.Counted)
    (hmove : hub.Move I e hub') (hexact : hub.FinalExact I e) {i : Nat} {o' : Outgoing}
    {data : Bytes} (ho' : hub'.calls[i]? = some o') (hask : o'.ask ≠ .free)
    (hpull : o'.pull = some (.ok data)) : o'.Sized data := by
  rcases hmove.earlier ho' with ⟨o, ho, hlater⟩ | ⟨_, _, _, hnone, _⟩
  · have hask' : o.ask ≠ .free := by
      rw [← hlater.ask]
      exact hask
    rcases hmove.quiet with ⟨peer, msg, now, rfl, rfl⟩ | hquiet
    · rw [calls_receive, ho] at ho'
      obtain rfl := Option.some.inj ho'
      rcases Outgoing.of_settle_pull hpull with hold | hnew
      · exact (h.pulled ho hask' hold).later hlater hask'
      · obtain ⟨k, b, chunk, hc, hmode, rfl⟩ := handled_resolved hnew
        have hsize : b.totalSize.asInt = some ((b.add chunk).received : Int) :=
          hexact k b chunk hc (by simp [Buffer.deliverable, hmode])
        have hlength : (b.add chunk).received = (b.add chunk).assemble.length :=
          (hcounted k b hc.buffer).add chunk
        obtain ⟨m, hm, htotal⟩ := h.headers hc.buffer hmode ho hask'
        refine Outgoing.Sized.later ⟨m, hm, ?_⟩ hlater hask'
        rw [htotal, hsize, hlength]
    · obtain ⟨x, hx, hkept⟩ := hquiet.calls ho
      rw [ho'] at hx
      obtain rfl := Option.some.inj hx
      rw [hkept.pull] at hpull
      exact (h.pulled ho hask' hpull).later hlater hask'
  · rw [hnone] at hpull
    cases hpull

theorem Pulls.loaded_move (h : hub.Pulls) (hwaiting : hub.Waiting) (hmove : hub.Move I e hub')
    {i : Nat} {o' : Outgoing} {data : Bytes} (ho' : hub'.calls[i]? = some o')
    (hstand : o'.stand = .over (.result (.loaded (some data)))) :
    o'.ask = .load ∧ ∃ m, o'.reply = some m ∧ (announcesChunks m = true → o'.Sized data) := by
  rcases hmove.stand ho' with ⟨o, ho, hlater, heq⟩ | heq | heq | ⟨o, f, ho, rfl, _⟩ |
    ⟨o, r, ho, rfl, hdata⟩
  · rw [heq] at hstand
    obtain ⟨hask, m, hm, hsized⟩ := h.loaded ho hstand
    have hfree : o.ask ≠ .free := by simp [hask]
    exact ⟨hlater.ask.trans hask, m, hlater.reply hfree m hm,
      fun hann => (hsized hann).later hlater hfree⟩
  · rw [heq] at hstand
    cases hstand
  · rw [heq] at hstand
    cases hstand
  · cases hstand
  · cases hstand
    cases hdata data rfl with
    | frame hask hreply hplain _ =>
      refine ⟨hask, _, hreply, ?_⟩
      intro hann
      rw [hann] at hplain
      cases hplain
    | chunks hpull hx hdone =>
      obtain ⟨rfl, hask⟩ := hwaiting ho hpull
      obtain rfl := Option.some.inj (hx.symm.trans ho)
      have hsized := h.pulled hx (by simp [hask]) hdone
      obtain ⟨m, hm, hsize⟩ := hsized
      exact ⟨hask, m, hm, fun _ => ⟨m, hm, hsize⟩⟩

theorem Pulls.move (h : hub.Pulls) (hlinked : hub.Linked I) (hwaiting : hub.Waiting)
    (hcounted : ∀ k b, hub.coordinator.buffers.get k = some b → b.Counted)
    (hmove : hub.Move I e hub') (hexact : hub.FinalExact I e) : hub'.Pulls where
  headers := fun hb hmode ho hask => h.headers_move hlinked hmove _ _ hb _ _ hmode ho hask
  pulled := fun ho hask hpull => h.pulled_move hcounted hmove hexact ho hask hpull
  loaded := fun ho hstand => h.loaded_move hwaiting hmove ho hstand

/-! ## §4 Runs -/

/-- The bytes are as many as declared, by a header the node has handled. -/
def AsDeclared (I : Interpreter K) (hub : Hub K) (reqId total : Value) (data : Bytes) : Prop :=
  total.asInt = some (data.length : Int) ∧ hub.Announced I (I.key reqId) total

theorem Reachable.transfers (h : Reachable I (FinalExact I) hub) :
    hub.Transfers (fun _ => hub.AsDeclared I) := by
  induction h with
  | start hfresh =>
    refine ⟨?_, ?_⟩
    · intro p reqId data d key hp
      simp [hfresh.handlers p] at hp
    · intro x hx
      simp [hfresh.commits] at hx
  | @step hub hub' e hreach hexact hstep ih =>
    have hmove := step_moves hstep
    refine (ih.mono ?_).move hmove ?_
    · intro p reqId total data hdata
      exact ⟨hdata.1, hdata.2.move hmove⟩
    · rintro peer msg now rfl _ k b chunk hc hpush hdeliver
      have hlength : (b.add chunk).received = (b.add chunk).assemble.length :=
        (hreach.counted k b hc.buffer).add chunk
      refine ⟨?_, ?_⟩
      · rw [hexact k b chunk hc hdeliver, hlength]
      · rw [hc.key]
        exact (hreach.announced k b hc.buffer hpush).move hmove

theorem Reachable.pulls (h : Reachable I (FinalExact I) hub) : hub.Pulls := by
  induction h with
  | @start hub hfresh =>
    refine ⟨?_, ?_, ?_⟩
    · intro k b f o hb
      simp [hfresh.coordinator, Coordinator.init] at hb
    · intro i o data ho
      simp [hfresh.calls] at ho
    · intro i o data ho
      simp [hfresh.calls] at ho
  | step hreach hexact hstep ih =>
    exact ih.move hreach.linked hreach.waiting hreach.counted (step_moves hstep) hexact

/-- A committed transfer, and a load that got a chunked reply, have as
many bytes as the header declared, in the runs whose final chunks are
exact; any other final chunk of a deliverable buffer hands over a
different number of bytes than its buffer was declared with. A chunk
that exceeds the declaration ends its transfer in every state, and
nothing of the transfer is handed over. -/
theorem declared_exact (I : Interpreter K) :
    (∀ hub : Hub K, Reachable I (FinalExact I) hub →
      (∀ x ∈ hub.commits, x.transfer = true →
        x.declared.asInt = some (x.data.length : Int) ∧
          hub.Announced I (I.key x.reqId) x.declared) ∧
      ∀ o ∈ hub.calls, ∀ reply data, o.reply = some reply → announcesChunks reply = true →
        o.stand = .over (.result (.loaded (some data))) →
        (totalSizeOf reply).asInt = some (data.length : Int)) ∧
    (∀ hub : Hub K, Reachable I Anything hub → ∀ peer msg now,
      ¬ hub.FinalExact I (.receive peer msg now) →
      ∃ data, Delivers (handleMessage I now hub.coordinator peer msg) data ∧
        (declaredFor I hub.coordinator msg).asInt ≠ some (data.length : Int)) ∧
    ∀ (hub : Hub K) peer msg now k b chunk, ChunkFor I hub.coordinator msg k b →
      chunkOf msg = some chunk → (b.add chunk).overrun I = some true →
      (hub.receive I peer msg now).coordinator.buffers.get k = none ∧
        ∀ data, ¬ Delivers (handleMessage I now hub.coordinator peer msg) data := by
  refine ⟨?_, ?_, fun _ _ _ _ _ _ _ hf hchunk hover => hf.overruns hchunk hover⟩
  · intro hub h
    refine ⟨fun x hx ht => h.transfers.commits x hx ht, ?_⟩
    intro o ho reply data hreply hann hstand
    obtain ⟨i, hi⟩ := List.getElem?_of_mem ho
    obtain ⟨_, m, hm, hsized⟩ := h.pulls.loaded hi hstand
    obtain rfl := Option.some.inj (hm.symm.trans hreply)
    obtain ⟨m', hm', hsize⟩ := hsized hann
    obtain rfl := Option.some.inj (hm'.symm.trans hreply)
    exact hsize
  · intro hub h peer msg now hexact
    simp only [FinalExact, not_forall] at hexact
    obtain ⟨k, b, chunk, hc, hdeliver, hsize⟩ := hexact
    refine ⟨(b.add chunk).assemble, hc.delivers hdeliver, ?_⟩
    have hlength : (b.add chunk).received = (b.add chunk).assemble.length :=
      (h.counted k b hc.buffer).add chunk
    rw [declaredFor_eq hc.toChunkFor, ← hlength]
    exact hsize

theorem finalExact_of_type {peer : String} {msg : Message} {now : Rat} (h : msg.type ≠ .blockChunk) :
    hub.FinalExact I (.receive peer msg now) :=
  fun _ _ _ hc => absurd hc.type h

/-- A chunk of the buffer under `k`. -/
theorem finalExact_of_chunk {peer : String} {msg : Message} {now : Rat} {k : K} {b : Buffer}
    {chunk : Bytes} (hkey : I.key (reqIdOf msg) = some k)
    (hb : hub.coordinator.buffers.get k = some b) (hchunk : chunkOf msg = some chunk)
    (hsize : isFinal msg = true → b.totalSize.asInt = some ((b.add chunk).received : Int)) :
    hub.FinalExact I (.receive peer msg now) := by
  intro k' b' chunk' hc _
  obtain rfl := Option.some.inj (hc.key.symm.trans hkey)
  obtain rfl := Option.some.inj (hc.buffer.symm.trans hb)
  obtain rfl := Option.some.inj (hc.payload.symm.trans hchunk)
  exact hsize hc.final

/-- A push of three bytes in two chunks is committed whole, and a load of
two bytes in one chunk returned. -/
theorem declared_exact_whole :
    (∃ hub, Reachable plainKeys (FinalExact plainKeys) hub ∧
      ∃ x ∈ hub.commits, x.transfer = true ∧ x.data = [7, 8, 9] ∧
        x.declared.asInt = some (x.data.length : Int)) ∧
    ∃ hub, Reachable plainKeys (FinalExact plainKeys) hub ∧ ∃ o ∈ hub.calls,
      o.stand = .over (.result (.loaded (some [7, 8]))) ∧
        ∃ m, o.reply = some m ∧ (totalSizeOf m).asInt = some 2 := by
  constructor
  · have hrun : ∃ hub₁ hub₂ hub₃ hub₄,
        twoStripes.step plainKeys (.receive "p" (storeHeader "t" 3 .pinned .nil 1) 0) = some hub₁ ∧
        hub₁.step plainKeys (.receive "p" (chunkFrame (.str "t") 1 0 [7, 8] false) 0) = some hub₂ ∧
        hub₂.step plainKeys (.receive "p" (chunkFrame (.str "t") 1 1 [9] true) 0) = some hub₃ ∧
        hub₃.step plainKeys (.serve "p" Shuffles.identity) = some hub₄ ∧
        (∃ b, hub₁.coordinator.buffers.get (.inl (some "t")) = some b) ∧
        (∃ b, hub₂.coordinator.buffers.get (.inl (some "t")) = some b ∧ b.totalSize = .int 3 ∧
          b.received = 2) ∧
        hub₄.commits = [⟨"p", .str "t", true, .int 3, [7, 8, 9]⟩] :=
      ⟨_, _, _, _, rfl, rfl, rfl, rfl, ⟨_, rfl⟩, ⟨_, rfl, rfl, rfl⟩, rfl⟩
    obtain ⟨hub₁, hub₂, hub₃, hub₄, h₁, h₂, h₃, h₄, ⟨b₁, hb₁⟩, ⟨b₂, hb₂, htotal, hreceived⟩, hcommits⟩ :=
      hrun
    have hreach : Reachable plainKeys (FinalExact plainKeys) hub₄ := by
      refine .step (e := .serve "p" Shuffles.identity) (.step (.step (.step (.start (fresh_init _ _))
        (finalExact_of_type (by decide)) h₁) ?_ h₂) ?_ h₃) trivial h₄
      · exact finalExact_of_chunk rfl hb₁ rfl (fun hfinal => absurd hfinal (by decide))
      · exact finalExact_of_chunk rfl hb₂ rfl (fun _ => by rw [htotal, Buffer.add, hreceived]; rfl)
    have hmem : (⟨"p", .str "t", true, .int 3, [7, 8, 9]⟩ : Commit) ∈ hub₄.commits := by
      rw [hcommits]
      exact List.mem_singleton_self _
    exact ⟨hub₄, hreach, _, hmem, rfl, rfl,
      (((declared_exact plainKeys).1 hub₄ hreach).1 _ hmem rfl).1⟩
  · have hrun : ∃ hub₁ hub₂ hub₃ hub₄ hub₅ hub₆,
        twoStripes.step plainKeys (.call "p" .load "r" "30.0") = some hub₁ ∧
        hub₁.step plainKeys (.out 0) = some hub₂ ∧
        hub₂.step plainKeys (.receive "p" (replyHeader (.str "r") 2 1) 0) = some hub₃ ∧
        hub₃.step plainKeys (.receive "p" (chunkFrame (.str "r") 1 0 [7, 8] true) 0) = some hub₄ ∧
        hub₄.step plainKeys (.go 0) = some hub₅ ∧ hub₅.step plainKeys (.go 0) = some hub₆ ∧
        (∃ b, hub₃.coordinator.buffers.get (.inl (some "r")) = some b ∧ b.totalSize = .int 2 ∧
          b.received = 0) ∧
        ∃ o, hub₆.calls = [o] ∧ o.reply = some (replyHeader (.str "r") 2 1) ∧
          o.stand = .over (.result (.loaded (some [7, 8]))) :=
      ⟨_, _, _, _, _, _, rfl, rfl, rfl, rfl, rfl, rfl, ⟨_, rfl, rfl, rfl⟩, _, rfl, rfl, rfl⟩
    obtain ⟨hub₁, hub₂, hub₃, hub₄, hub₅, hub₆, h₁, h₂, h₃, h₄, h₅, h₆, ⟨b, hb, htotal, hreceived⟩, o,
      hcalls, hreply, hstand⟩ := hrun
    have hreach : Reachable plainKeys (FinalExact plainKeys) hub₆ := by
      refine .step (e := .go 0) (.step (e := .go 0) (.step (.step (.step (e := .out 0)
        (.step (e := .call "p" .load "r" "30.0") (.start (fresh_init _ _)) trivial h₁) trivial h₂)
        (finalExact_of_type (by decide)) h₃) ?_ h₄) trivial h₅) trivial h₆
      exact finalExact_of_chunk rfl hb rfl (fun _ => by rw [htotal, Buffer.add, hreceived]; rfl)
    have hmem : o ∈ hub₆.calls := by
      rw [hcalls]
      exact List.mem_singleton_self o
    exact ⟨hub₆, hreach, o, hmem, hstand, _, hreply,
      ((declared_exact plainKeys).1 hub₆ hreach).2 o hmem _ _ hreply rfl hstand⟩

/-- A push of three bytes whose first chunk is marked final. -/
def shortPush : List (Event (Option String ⊕ Int)) :=
  [.receive "p" (storeHeader "t" 3 .pinned .nil 1) 0,
    .receive "p" (chunkFrame (.str "t") 1 0 [7] true) 0, .serve "p" Shuffles.identity]

/-- A load whose answer declares three bytes and ends after one. -/
def shortPull : List (Event (Option String ⊕ Int)) :=
  answering 3 ++ [.receive "p" (chunkFrame (.str "r") 1 0 [7] true) 0, .go 0, .go 0]

/-- Both are taken: one byte is committed, and one byte is returned. -/
theorem short_transfers :
    (∃ hub, Reachable plainKeys Anything hub ∧
      hub.commits = [⟨"p", .str "t", true, .int 3, [7]⟩]) ∧
    ∃ hub, Reachable plainKeys Anything hub ∧ ∃ o ∈ hub.calls,
      o.reply = some (replyHeader (.str "r") 3 1) ∧
        o.stand = .over (.result (.loaded (some [7]))) := by
  have hpush : ∃ hub, twoStripes.run plainKeys shortPush = some hub ∧
      hub.commits = [⟨"p", .str "t", true, .int 3, [7]⟩] := ⟨_, rfl, rfl⟩
  have hpull : ∃ hub, twoStripes.run plainKeys shortPull = some hub ∧ ∃ o, hub.calls = [o] ∧
      o.reply = some (replyHeader (.str "r") 3 1) ∧
        o.stand = .over (.result (.loaded (some [7]))) := ⟨_, rfl, _, rfl, rfl, rfl⟩
  obtain ⟨hub₁, hrun₁, hcommits⟩ := hpush
  obtain ⟨hub₂, hrun₂, o, hcalls, hreply, hstand⟩ := hpull
  refine ⟨⟨hub₁, .run _ (.start (fresh_init _ _)) hrun₁, hcommits⟩,
    hub₂, .run _ (.start (fresh_init _ _)) hrun₂, o, ?_, hreply, hstand⟩
  rw [hcalls]
  exact List.mem_singleton_self o

end Hub

end Memnode.Replication
