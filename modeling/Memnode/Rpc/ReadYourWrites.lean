/-
Memnode.Rpc.ReadYourWrites — when a load by key returns the latest
store.

The store path binds a key here or on the best peer, whichever has room;
the load path takes the copy here first and then the first peer that has
one. Nothing removes the copies a store leaves behind in other places,
so a load can return what an earlier store wrote (`overflow_reads_old`).

`Alone` is the condition on a single request: a store that was accepted
leaves no other bytes under its key in any place but its own.
`reads_latest_iff` says that it is the right one. If every request of a
run meets it, loads return the latest accepted store or nothing, in
every state of the run and after any frees; and if loads do so in all
these states, every request met it. For the second half the links are
reliable, as only then every free and every load reaches its peer.
-/
import Memnode.Rpc.Copies

namespace Memnode.Rpc

open Lib Blocks Replication

variable {K : Type} [DecidableEq K] (R : Runtime K)

/-! ## What a request writes -/

/-- The key and the bytes of a store with both. -/
def Request.write (r : Request) : Option (K × Bytes) :=
  match r.op, requestPayload R r.body with
  | .store, .ok (some data) =>
      (boundKey R.toInterpreter ((Value.get r.body "key").getD .nil)).map (fun k => (k, data))
  | _, _ => none

/-- A `load` by a key that is `k`, `allow_remote` left true. -/
def Request.LoadsKey (r : Request) (k : K) : Prop :=
  r.op = .load ∧ Value.get r.body "block_id" = none ∧
    (∃ key, Value.get r.body "key" = some key ∧ R.key key = some k) ∧ allowRemote R r.body = true

/-- A request that frees a block. -/
def Request.Frees (r : Request) : Prop := r.op = .free ∨ r.op = .remoteFree

/-- `ok` is True. -/
def accepted (answer : Answer) : Bool :=
  match answer.lookup "ok" with
  | some (.bool true) => true
  | _ => false

/-- What an exchange wrote under `k`. -/
def written (k : K) (x : Request × Answer) : Option Bytes :=
  if accepted x.2 then (x.1.write R).bind (fun w => if w.1 = k then some w.2 else none) else none

/-- The bytes of the most recent accepted store under `k`. -/
def latest (k : K) (past : List (Request × Answer)) : Option Bytes :=
  past.reverse.findSome? (written R k)

theorem latest_snoc (k : K) (past : List (Request × Answer)) (x : Request × Answer) :
    latest R k (past ++ [x]) = (written R k x).or (latest R k past) := by
  rw [latest, List.reverse_append, List.reverse_singleton, List.singleton_append,
    List.findSome?_cons]
  cases written R k x <;> rfl

namespace Cluster

/-- The place, the key and the bytes of a store that was accepted. -/
def wrote (c : Cluster K) (t : Turn) : Option (Place × K × Bytes) :=
  match t.request.write R, (c.store R t).2.place with
  | some (k, data), some q => some (q, k, data)
  | _, _ => none

theorem accepted_response (s : Stored) : accepted (answerOf s.response) = s.place.isSome := by
  cases s <;> rfl

/-- An exchange wrote what the store of its request did. -/
theorem written_handle (c : Cluster K) (t : Turn) (k : K) :
    written R k (t.request, (c.handle R t).2)
      = (c.wrote R t).bind (fun w => if w.2.1 = k then some w.2.2 else none) := by
  cases hw : t.request.write R with
  | none => simp [written, wrote, hw]
  | some w =>
    have hop : t.request.op = .store := by
      unfold Request.write at hw
      split at hw
      · assumption
      · cases hw
    have hanswer : (c.handle R t).2 = answerOf (c.store R t).2.response := by
      simp only [handle, dispatch, hop]
    simp only [written, hanswer, accepted_response, hw, wrote]
    cases (c.store R t).2.place <;> rfl

/-! ## One request -/

/-- Nothing is written before the payload is known. -/
theorem store_quiet (c : Cluster K) {t : Turn}
    (h : ∀ data, requestPayload R t.request.body ≠ .ok (some data)) : (c.store R t).1 = c := by
  unfold store attempt
  cases hpayload : requestPayload R t.request.body with
  | error text => rfl
  | ok payload =>
    cases payload with
    | none => rfl
    | some data => exact absurd hpayload (h data)

theorem store_changed {c : Cluster K} (h : c.Sound) {t : Turn} {data : Bytes}
    (hpayload : requestPayload R t.request.body = .ok (some data)) :
    Changed c (c.store R t).1 (c.store R t).2.place
      (boundKey R.toInterpreter ((Value.get t.request.body "key").getD .nil)) data := by
  unfold store attempt
  simp only [hpayload]
  cases durabilityOf ((Value.get t.request.body "durability").getD (durabilityValue .pinned)) with
  | none => exact .refl h _ _
  | some d =>
    obtain ⟨hindexed, hwrote⟩ := store_wrote h.here (t.here c.cfg.stripeCount)
      (storeArguments R.toInterpreter data d ((Value.get t.request.body "key").getD .nil))
    rw [show hashedKey (storeArguments R.toInterpreter data d _).key = _
      from hashedKey_keyObject R.toInterpreter _] at hwrote
    simp only
    generalize AnyKey.store c.manager (t.here c.cfg.stripeCount) _ = done at hindexed hwrote
    obtain ⟨m, res⟩ := done
    have hrefused : ∀ e, res = .error e → Changed c { c with manager := m } none
        (boundKey R.toInterpreter ((Value.get t.request.body "key").getD .nil)) data := by
      rintro e rfl
      exact changed_manager h (Or.inl rfl) hindexed hwrote
    cases res with
    | ok b => exact changed_manager h (Or.inr rfl) hindexed hwrote
    | error e =>
      have hkept := hrefused e rfl
      cases e with
      | unhashable text => exact hkept
      | refused e =>
        cases e with
        | blockTooLarge size => exact hkept
        | outOfMemory size used freed =>
          simp only
          split
          · exact hkept.trans (overflow_changed R hkept.sound t _ data d _)
          · exact hkept

theorem free_changed {c : Cluster K} (h : c.Sound) (body : Body) :
    Changed c (c.free R body).1 none none [] := by
  unfold free
  split
  · exact .refl h _ _
  · split
    · exact .refl h _ _
    · rename_i b _
      obtain ⟨hindexed, hkept⟩ := free_kept h.here b
      exact changed_manager h (Or.inl rfl) hindexed (wrote_none.mpr hkept)

omit [DecidableEq K] in
/-- No peer was found, or the request went on with one. -/
theorem atPeer_cases (c : Cluster K) (body : Body)
    (act : String → Cluster K × Except String Answer) :
    (c.atPeer R body act).1 = c ∨ ∃ pubkey, (c.atPeer R body act).1 = (act pubkey).1 := by
  unfold atPeer
  split
  · exact Or.inl rfl
  · split
    · exact Or.inl rfl
    · exact Or.inr ⟨_, rfl⟩

theorem atPeer_changed {c : Cluster K} (h : c.Sound) (body : Body)
    {act : String → Cluster K × Except String Answer}
    (hact : ∀ pubkey, Changed c (act pubkey).1 none none []) :
    Changed c (c.atPeer R body act).1 none none [] := by
  rcases atPeer_cases R c body act with heq | ⟨pubkey, heq⟩
  · rw [heq]
    exact .refl h _ _
  · rw [heq]
    exact hact pubkey

omit [DecidableEq K] in
theorem remoteAnswer_fst {α : Type} (answer : α → Answer)
    (out : Cluster K × Except RemoteError α) : (remoteAnswer R answer out).1 = out.1 := by
  obtain ⟨c, res⟩ := out
  cases res with
  | ok a => rfl
  | error e =>
    simp only [remoteAnswer]
    split <;> rfl

theorem remoteLoad_changed {c : Cluster K} (h : c.Sound) (t : Turn) :
    Changed c (c.remoteLoad R t).1 none none [] := by
  refine atPeer_changed R h _ (fun pubkey => ?_)
  rw [remoteAnswer_fst]
  exact loadRemote_changed R h t pubkey _ _

theorem remoteFree_changed {c : Cluster K} (h : c.Sound) (t : Turn) :
    Changed c (c.remoteFree R t).1 none none [] := by
  refine atPeer_changed R h _ (fun pubkey => ?_)
  split
  · exact .refl h _ _
  · rw [remoteAnswer_fst]
    exact freeRemote_changed R h t pubkey _

/-- What one request does to the copies is what it wrote. -/
theorem handle_changed {c : Cluster K} (h : c.Sound) {t : Turn}
    (hop : t.request.op ≠ .remoteStore) :
    ∃ place key data, Changed c (c.handle R t).1 place key data ∧
      c.wrote R t = place.bind (fun q => key.map (fun k => (q, k, data))) := by
  have hquiet : t.request.op ≠ .store → c.wrote R t = none := by
    intro hne
    have hw : t.request.write R = none := by
      unfold Request.write
      split
      · exact absurd ‹_› hne
      · rfl
    simp [wrote, hw]
  have hkept : t.request.op ≠ .store → ∀ {c'}, Changed c c' none none [] →
      (c.dispatch R t).1 = c' → ∃ place key data, Changed c (c.handle R t).1 place key data ∧
        c.wrote R t = place.bind (fun q => key.map (fun k => (q, k, data))) := by
    rintro hne c' hchanged rfl
    exact ⟨none, none, [], hchanged, hquiet hne⟩
  cases hcase : t.request.op with
  | store =>
    have hstep : (c.handle R t).1 = (c.store R t).1 := by simp only [handle, dispatch, hcase]
    by_cases hpayload : ∃ data, requestPayload R t.request.body = .ok (some data)
    · obtain ⟨data, hpayload⟩ := hpayload
      refine ⟨_, _, data, hstep ▸ store_changed R h hpayload, ?_⟩
      simp only [wrote, Request.write, hpayload, hcase]
      cases boundKey R.toInterpreter ((Value.get t.request.body "key").getD .nil) <;>
        cases (c.store R t).2.place <;> rfl
    · have hnot := not_exists.mp hpayload
      refine ⟨none, none, [], by rw [hstep, store_quiet R c hnot]; exact .refl h _ _, ?_⟩
      have hw : t.request.write R = none := by
        unfold Request.write
        split
        · exact absurd ‹_› (hnot _)
        · rfl
      simp [wrote, hw]
  | load => exact hkept (by simp [hcase]) (find_changed R h t) (by simp only [dispatch, hcase])
  | free =>
    exact hkept (by simp [hcase]) (free_changed R h t.request.body) (by simp only [dispatch, hcase])
  | remoteStore => exact absurd hcase hop
  | remoteLoad =>
    exact hkept (by simp [hcase]) (remoteLoad_changed R h t) (by simp only [dispatch, hcase])
  | remoteFree =>
    exact hkept (by simp [hcase]) (remoteFree_changed R h t) (by simp only [dispatch, hcase])

theorem handle_wrote {c : Cluster K} (h : c.Sound) {t : Turn} (hop : t.request.op ≠ .remoteStore)
    {q : Place} {k : K} {data : Bytes} (hw : c.wrote R t = some (q, k, data)) :
    (c.handle R t).1.copy q k = some data := by
  obtain ⟨place, key, data', hchanged, heq⟩ := handle_changed R h hop
  rw [hw] at heq
  cases place <;> cases key <;> cases heq
  simpa using hchanged.wrote q k

theorem handle_kept {c : Cluster K} (h : c.Sound) {t : Turn} (hop : t.request.op ≠ .remoteStore)
    {q : Place} {k : K} (hw : ∀ data, c.wrote R t ≠ some (q, k, data)) :
    Kept (c.copy q k) ((c.handle R t).1.copy q k) := by
  obtain ⟨place, key, data, hchanged, heq⟩ := handle_changed R h hop
  have hcopy := hchanged.wrote q k
  rw [if_neg] at hcopy
  · exact hcopy
  · intro hboth
    split at hboth
    · rename_i hplace
      exact hw data (by rw [heq, hplace, hboth]; rfl)
    · cases hboth

/-! ## Runs -/

def final (c : Cluster K) (ts : List Turn) : Cluster K :=
  ts.foldl (fun c t => (c.handle R t).1) c

/-- The exchanges of a run. -/
def history (c : Cluster K) : List Turn → List (Request × Answer)
  | [] => []
  | t :: ts => (t.request, (c.handle R t).2) :: history (c.handle R t).1 ts

theorem final_append (c : Cluster K) (ts us : List Turn) :
    c.final R (ts ++ us) = (c.final R ts).final R us :=
  List.foldl_append

theorem history_append (c : Cluster K) (ts us : List Turn) :
    c.history R (ts ++ us) = c.history R ts ++ (c.final R ts).history R us := by
  induction ts generalizing c with
  | nil => rfl
  | cons t ts ih =>
    simp only [List.cons_append, history, ih]
    rfl

theorem final_sound {c : Cluster K} (h : c.Sound) {ts : List Turn}
    (hops : ∀ t ∈ ts, t.request.op ≠ .remoteStore) :
    (c.final R ts).Sound ∧ (c.final R ts).places = c.places := by
  induction ts generalizing c with
  | nil => exact ⟨h, rfl⟩
  | cons t ts ih =>
    obtain ⟨_, _, _, hchanged, _⟩ := handle_changed R h (hops t (by simp))
    obtain ⟨hsound, hplaces⟩ := ih hchanged.sound (fun t' ht' => hops t' (by simp [ht']))
    exact ⟨hsound, hplaces.trans hchanged.places⟩

/-- The request leaves no other bytes under its key in another place. -/
def Alone (c : Cluster K) (t : Turn) : Prop :=
  match c.wrote R t with
  | none => True
  | some (q, k, data) =>
      ∀ q' ∈ (c.handle R t).1.places, q' ≠ q →
        (c.handle R t).1.copy q' k = none ∨ (c.handle R t).1.copy q' k = some data

/-- Every request of the run does so. -/
def Aligned (c : Cluster K) : List Turn → Prop
  | [] => True
  | t :: ts => c.Alone R t ∧ Aligned (c.handle R t).1 ts

theorem aligned_append (c : Cluster K) (ts us : List Turn) :
    c.Aligned R (ts ++ us) ↔ c.Aligned R ts ∧ (c.final R ts).Aligned R us := by
  induction ts generalizing c with
  | nil => simp [Aligned, final]
  | cons t ts ih =>
    simp only [List.cons_append, Aligned, ih, and_assoc]
    rfl

/-- Every copy is of the latest accepted store. -/
def Current (past : List (Request × Answer)) (c : Cluster K) : Prop :=
  ∀ q k data, c.copy q k = some data → latest R k past = some data

theorem mem_places {c : Cluster K} {q : Place} {k : K} {data : Bytes}
    (h : c.copy q k = some data) : q ∈ c.places := by
  cases q with
  | none => simp [places]
  | some pubkey =>
    obtain ⟨p, hp, _⟩ := Option.bind_eq_some_iff.mp h
    have hmem := (c.peers.mem_keys_iff pubkey).mpr ⟨p, (connected_eq_some.mp hp).1⟩
    simp [places, hmem]

/-- **One request**: copies stay current exactly when the request leaves
none behind. Here the direction that runs need. -/
theorem Current.handle {past : List (Request × Answer)} {c : Cluster K} (h : Current R past c)
    (hsound : c.Sound) {t : Turn} (hop : t.request.op ≠ .remoteStore) (halone : c.Alone R t) :
    Current R (past ++ [(t.request, (c.handle R t).2)]) (c.handle R t).1 := by
  intro q k data hcopy
  rw [latest_snoc, written_handle]
  cases hw : c.wrote R t with
  | none =>
    have hkept := handle_kept R hsound hop (q := q) (k := k) (by simp [hw])
    exact h q k data (hkept.eq_some hcopy)
  | some w =>
    obtain ⟨q₀, k₀, data₀⟩ := w
    by_cases hk : k₀ = k
    · subst hk
      simp only [Option.bind_some, if_true, Option.some_or, Option.some.injEq]
      by_cases hq : q = q₀
      · subst hq
        rw [handle_wrote R hsound hop hw] at hcopy
        exact Option.some.inj hcopy
      · simp only [Alone, hw] at halone
        rcases halone q (mem_places hcopy) hq with hnone | hsame
        · rw [hcopy] at hnone
          cases hnone
        · rw [hcopy] at hsame
          exact (Option.some.inj hsame).symm
    · have hkept := handle_kept R hsound hop (q := q) (k := k) (by simp [hw, hk])
      simpa [hk] using h q k data (hkept.eq_some hcopy)

theorem Current.run {past : List (Request × Answer)} {c : Cluster K} (h : Current R past c)
    (hsound : c.Sound) {ts : List Turn} (hops : ∀ t ∈ ts, t.request.op ≠ .remoteStore)
    (haligned : c.Aligned R ts) : Current R (past ++ c.history R ts) (c.final R ts) := by
  induction ts generalizing c past with
  | nil => simpa [history, final] using h
  | cons t ts ih =>
    have hop := hops t (by simp)
    obtain ⟨_, _, _, hchanged, _⟩ := handle_changed R hsound hop
    have hnext := ih (h.handle R hsound hop haligned.1) hchanged.sound
      (fun t' ht' => hops t' (by simp [ht'])) haligned.2
    simpa [history, final] using hnext

/-! ## Loads -/

/-- Loads by key return the latest accepted store, or nothing. -/
def ReadsLatest (c : Cluster K) (past : List (Request × Answer)) : Prop :=
  ∀ (t : Turn) (k : K), t.request.LoadsKey R k →
    (c.handle R t).2 = failed (Py.text "not found") ∨
      ∃ data, latest R k past = some data ∧
        (c.handle R t).2 = payloadResponse data t.request.codec

theorem handle_find (c : Cluster K) {t : Turn} (hop : t.request.op = .load) :
    (c.handle R t).2 = answerOf ((c.find R t).2.map (foundResponse t.request.codec)) := by
  simp only [handle, dispatch, hop]

theorem Current.readsLatest {past : List (Request × Answer)} {c : Cluster K}
    (h : Current R past c) (hsound : c.Sound) : c.ReadsLatest R past := by
  rintro t k ⟨hop, hblock, ⟨key, hkey, hk⟩, -⟩
  obtain ⟨found, hfound, hcopy⟩ := find_key R hsound hblock hkey hk
  rw [handle_find R c hop, hfound]
  cases found with
  | none => exact Or.inl rfl
  | some data =>
    obtain ⟨q, hq⟩ := hcopy data rfl
    exact Or.inr ⟨data, h q k data hq, rfl⟩

/-- Over reliable links, a load takes the first copy. -/
theorem handle_load (hlinks : R.Reliable) (c : Cluster K) {t : Turn} {k : K}
    (h : t.request.LoadsKey R k) :
    (c.handle R t).2
      = foundResponse t.request.codec (c.places.findSome? (fun q => c.copy q k)) := by
  obtain ⟨hop, hblock, ⟨key, hkey, hk⟩, hallow⟩ := h
  rw [handle_find R c hop, find_key_reliable R hlinks c hblock hkey hk hallow]
  rfl

/-! ## Frees -/

/-- A request of a client that speaks msgpack. -/
def ask (op : Op) (fields : List (String × Value)) : Turn where
  request :=
    { op := op
      body := (("op", .str op.value) :: fields).map (fun f => (.str f.1, f.2))
      codec := .msgpack }
  here := Shuffles.identity
  there := Shuffles.identity
  reqId := id
  stream := 1
  late := false

/-- Free what `q` holds under `k`. -/
def release (c : Cluster K) (k : K) : Place → List Turn
  | none => ((c.manager.bound (.inl k)).map (fun b => ask .free [("block_id", .int b)])).toList
  | some pubkey =>
      (((c.connected pubkey).bind (fun p => p.manager.bound (.inl k))).map
        (fun b => ask .remoteFree [("peer", .str pubkey), ("block_id", .int b)])).toList

theorem handle_free (c : Cluster K) (b : BlockId) :
    (c.handle R (ask .free [("block_id", .int b)])).1
      = { c with manager := (AnyKey.free c.manager b).1 } := rfl

theorem handle_remoteFree (hlinks : R.Reliable) {c : Cluster K} {n : Nat}
    (hlength : ∀ p ∈ c.peers.keys, p.length = n) {pubkey : String} {p : Peer K}
    (hp : c.connected pubkey = some p) (b : BlockId) :
    (c.handle R (ask .remoteFree [("peer", .str pubkey), ("block_id", .int b)])).1
      = c.withPeer pubkey { p with manager := (AnyKey.free p.manager b).1 } := by
  have hmem := (c.peers.mem_keys_iff pubkey).mpr ⟨p, (connected_eq_some.mp hp).1⟩
  have hcall : c.freeRemote R (ask .remoteFree [("peer", .str pubkey), ("block_id", .int b)])
      pubkey (.int b)
      = (c.withPeer pubkey { p with manager := (AnyKey.free p.manager b).1 },
          .ok (freedBy (AnyKey.free p.manager b).2)) := by
    simp [freeRemote, callPeer, hp, hlinks _, Peer.freeRemote, Value.asInt]
  show (c.remoteFree R (ask .remoteFree [("peer", .str pubkey), ("block_id", .int b)])).1 = _
  have hpeer : Value.get (ask .remoteFree
      [("peer", .str pubkey), ("block_id", .int b)]).request.body "peer" = some (.str pubkey) := rfl
  have hblock : Value.get (ask .remoteFree
      [("peer", .str pubkey), ("block_id", .int b)]).request.body "block_id" = some (.int b) := rfl
  simp only [remoteFree, atPeer, hpeer, hblock, resolvePeer_self hlength hmem, remoteAnswer_fst,
    hcall]

/-- Afterwards the place has nothing under the key, and the others have
what they had. -/
theorem release_spec (hlinks : R.Reliable) {c : Cluster K} {n : Nat}
    (hlength : ∀ p ∈ c.peers.keys, p.length = n) (k : K) (q : Place) :
    (c.final R (c.release k q)).copy q k = none ∧
      ∀ q', q' ≠ q → (c.final R (c.release k q)).copy q' k = c.copy q' k := by
  have hidle : c.release k q = [] → c.copy q k = none →
      (c.final R (c.release k q)).copy q k = none ∧
        ∀ q', q' ≠ q → (c.final R (c.release k q)).copy q' k = c.copy q' k := by
    intro hnil hcopy
    rw [hnil]
    exact ⟨hcopy, fun _ _ => rfl⟩
  cases q with
  | none =>
    cases hb : c.manager.bound (.inl k) with
    | none => exact hidle (by simp [release, hb]) (by simp [copy, held_eq, hb])
    | some b =>
      have hfinal : c.final R (c.release k none)
          = { c with manager := (AnyKey.free c.manager b).1 } := by
        simp only [release, hb, Option.map_some, Option.toList_some]
        exact handle_free R c b
      rw [hfinal]
      refine ⟨free_bound hb, fun q' hq' => ?_⟩
      cases q' with
      | none => exact absurd rfl hq'
      | some pubkey => rfl
  | some pubkey =>
    cases hp : c.connected pubkey with
    | none => exact hidle (by simp [release, hp]) (by simp [copy, hp])
    | some p =>
      cases hb : p.manager.bound (.inl k) with
      | none => exact hidle (by simp [release, hp, hb]) (by simp [copy, hp, held_eq, hb])
      | some b =>
        have hfinal : c.final R (c.release k (some pubkey))
            = c.withPeer pubkey { p with manager := (AnyKey.free p.manager b).1 } := by
          simp only [release, hp, hb, Option.bind_some, Option.map_some, Option.toList_some]
          exact handle_remoteFree R hlinks hlength hp b
        rw [hfinal]
        refine ⟨?_, fun q' hq' => ?_⟩
        · rw [copy_withPeer, if_pos rfl]
          simp only [free_bound hb, ite_self]
        · rw [copy_withPeer, if_neg hq']

theorem frees_release (c : Cluster K) (k : K) (q : Place) :
    ∀ t ∈ c.release k q, t.request.Frees := by
  intro t ht
  cases q with
  | none =>
    obtain ⟨b, _, rfl⟩ := Option.map_eq_some_iff.mp (Option.mem_toList.mp ht)
    exact Or.inl rfl
  | some pubkey =>
    obtain ⟨b, _, rfl⟩ := Option.map_eq_some_iff.mp (Option.mem_toList.mp ht)
    exact Or.inr rfl

section Frees

variable {ts : List Turn}

theorem wrote_frees (c : Cluster K) {t : Turn} (h : t.request.Frees) : c.wrote R t = none := by
  have hw : t.request.write R = none := by
    rcases h with hop | hop <;> simp [Request.write, hop]
  simp [wrote, hw]

theorem frees_op {r : Request} (h : r.Frees) : r.op ≠ .remoteStore := by
  rcases h with hop | hop <;> simp [hop]

theorem aligned_frees (c : Cluster K) (h : ∀ t ∈ ts, t.request.Frees) : c.Aligned R ts := by
  induction ts generalizing c with
  | nil => trivial
  | cons t ts ih =>
    refine ⟨?_, ih _ (fun t' ht' => h t' (by simp [ht']))⟩
    simp [Alone, wrote_frees R c (h t (by simp))]

theorem copy_frees {c : Cluster K} (hsound : c.Sound) (h : ∀ t ∈ ts, t.request.Frees) (q : Place)
    (k : K) : Kept (c.copy q k) ((c.final R ts).copy q k) := by
  induction ts generalizing c with
  | nil => exact Or.inl rfl
  | cons t ts ih =>
    have ht := h t (by simp)
    have hstep : Kept (c.copy q k) ((c.handle R t).1.copy q k) :=
      handle_kept R hsound (frees_op ht) (by simp [wrote_frees R c ht])
    obtain ⟨_, _, _, hchanged, _⟩ := handle_changed R hsound (frees_op ht)
    exact hstep.trans (ih hchanged.sound (fun t' ht' => h t' (by simp [ht'])))

theorem latest_frees (c : Cluster K) (h : ∀ t ∈ ts, t.request.Frees) (k : K)
    (past : List (Request × Answer)) :
    latest R k (past ++ c.history R ts) = latest R k past := by
  induction ts generalizing c past with
  | nil => simp [history]
  | cons t ts ih =>
    have hrest := ih (c.handle R t).1 (fun t' ht' => h t' (by simp [ht']))
      (past ++ [(t.request, (c.handle R t).2)])
    rw [latest_snoc, written_handle, wrote_frees R c (h t (by simp))] at hrest
    simpa [history] using hrest

/-- Frees can clear all places but one of what they hold under a key. -/
theorem exists_frees (hlinks : R.Reliable) {c : Cluster K} (hsound : c.Sound) {n : Nat}
    (hlength : ∀ q, some q ∈ c.places → q.length = n) (k : K) (kept : Place) (qs : List Place)
    (hkept : kept ∉ qs) :
    ∃ ts, (∀ t ∈ ts, t.request.Frees) ∧ (∀ q ∈ qs, (c.final R ts).copy q k = none) ∧
      (c.final R ts).copy kept k = c.copy kept k := by
  induction qs generalizing c with
  | nil => exact ⟨[], by simp, by simp, rfl⟩
  | cons q qs ih =>
    have hkeys : ∀ p ∈ c.peers.keys, p.length = n := fun p hp => hlength p (by simp [places, hp])
    have hfrees := frees_release c k q
    obtain ⟨hgone, hothers⟩ := release_spec R hlinks hkeys k q
    obtain ⟨hsound', hplaces⟩ :=
      final_sound R hsound (fun t ht => frees_op (hfrees t ht))
    obtain ⟨ts, hts, hclear, hsame⟩ := ih hsound' (by rwa [hplaces]) (fun h => hkept (by simp [h]))
    refine ⟨c.release k q ++ ts, ?_, ?_, ?_⟩
    · intro t ht
      rcases List.mem_append.mp ht with ht | ht
      · exact hfrees t ht
      · exact hts t ht
    · intro q' hq'
      rw [final_append]
      rcases List.mem_cons.mp hq' with rfl | hq'
      · exact (copy_frees R hsound' hts q' k).eq_none hgone
      · exact hclear q' hq'
    · rw [final_append, hsame]
      exact hothers kept (fun h => hkept (by simp [h]))

end Frees

/-! ## The result -/

/-- Nothing is stored anywhere yet, every peer is connected, and peers
are named by the 64 hex digits of their identities. -/
structure Fresh (c : Cluster K) : Prop where
  here : c.manager = .init c.cfg
  there : ∀ pubkey p, c.peers.get pubkey = some p → p.manager = .init p.cfg ∧ p.alive = true
  names : ∀ pubkey ∈ c.peers.keys, pubkey.length = 64

theorem Fresh.sound {c : Cluster K} (h : c.Fresh) : c.Sound := by
  refine ⟨?_, fun pubkey p hp => ?_⟩
  · rw [h.here]
    exact indexed_init _
  · rw [(h.there pubkey p hp).1]
    exact indexed_init _

theorem Fresh.current {c : Cluster K} (h : c.Fresh) : Current R [] c := by
  intro q k data hcopy
  have hempty : ∀ cfg : Settings (KeyObject K), held (.init cfg) k = none := fun _ => rfl
  cases q with
  | none =>
    rw [copy, h.here, hempty] at hcopy
    cases hcopy
  | some pubkey =>
    obtain ⟨p, hp, hload⟩ := Option.bind_eq_some_iff.mp hcopy
    rw [(h.there pubkey p (connected_eq_some.mp hp).1).1, hempty] at hload
    cases hload

/-- A load finds the only copy there is. -/
theorem findSome?_only {c : Cluster K} {k : K} {q : Place} {data : Bytes}
    (hcopy : c.copy q k = some data) (hrest : ∀ q' ∈ c.places, q' ≠ q → c.copy q' k = none) :
    c.places.findSome? (fun q => c.copy q k) = some data := by
  cases hfound : c.places.findSome? (fun q => c.copy q k) with
  | none =>
    have hnone := List.findSome?_eq_none_iff.mp hfound q (mem_places hcopy)
    rw [hcopy] at hnone
    cases hnone
  | some data' =>
    obtain ⟨q', hmem, hcopy'⟩ := List.exists_of_findSome?_eq_some hfound
    by_cases hq : q' = q
    · subst hq
      rw [← hcopy', hcopy]
    · rw [hrest q' hmem hq] at hcopy'
      cases hcopy'

/-- The key of a store can be asked for. -/
theorem loadsKey_of_wrote {c : Cluster K} {t : Turn} {q : Place} {k : K} {data : Bytes}
    (h : c.wrote R t = some (q, k, data)) :
    ∃ u : Turn, u.request.LoadsKey R k ∧ u.request.codec = .msgpack := by
  obtain ⟨key, hkey⟩ : ∃ key, boundKey R.toInterpreter key = some k := by
    unfold wrote at h
    split at h
    · rename_i k' data' q' hw _
      cases h
      unfold Request.write at hw
      split at hw
      · obtain ⟨k', hk', heq⟩ := Option.map_eq_some_iff.mp hw
        cases heq
        exact ⟨_, hk'⟩
      · cases hw
    · cases h
  exact ⟨ask .load [("key", key)], ⟨rfl, rfl, ⟨key, rfl, key_of_boundKey hkey⟩, rfl⟩, rfl⟩

theorem payloadResponse_inj {data data' : Bytes}
    (h : payloadResponse data .msgpack = payloadResponse data' .msgpack) : data = data' := by
  simpa [payloadResponse] using h

/-- A request that leaves another copy behind lets some load return it. -/
theorem alone_of_readsLatest (hlinks : R.Reliable) (past : List (Request × Answer))
    {c : Cluster K} (hsound : c.Sound) {n : Nat} (hlength : ∀ q, some q ∈ c.places → q.length = n) {t : Turn}
    (hop : t.request.op ≠ .remoteStore)
    (hreads : ∀ frees : List Turn, (∀ u ∈ frees, u.request.Frees) →
      ((c.handle R t).1.final R frees).ReadsLatest R
        (past ++ [(t.request, (c.handle R t).2)] ++ (c.handle R t).1.history R frees)) :
    c.Alone R t := by
  obtain ⟨_, _, _, hchanged, _⟩ := handle_changed R hsound hop
  unfold Alone
  split
  · trivial
  · rename_i q k data hw
    intro q' hmem hq'
    cases hcopy : (c.handle R t).1.copy q' k with
    | none => exact Or.inl rfl
    | some data' =>
      right
      -- clear every other place, then load
      obtain ⟨frees, hfrees, hclear, hsame⟩ := exists_frees R hlinks hchanged.sound
        (by rwa [hchanged.places]) k q'
        ((c.handle R t).1.places.filter (fun p => p ≠ q')) (by simp)
      obtain ⟨hsound', hplaces⟩ :=
        final_sound R hchanged.sound (fun u hu => frees_op (hfrees u hu))
      obtain ⟨u, hload, hcodec⟩ := loadsKey_of_wrote R hw
      have hfound := findSome?_only (c := (c.handle R t).1.final R frees) (hsame.trans hcopy)
        (fun p hp hne => hclear p (by rw [← hplaces]; simp [hp, hne]))
      have hanswer := handle_load R hlinks ((c.handle R t).1.final R frees) hload
      rw [hfound, hcodec] at hanswer
      rcases hreads frees hfrees u k hload with hnone | ⟨data₀, hlatest, hdata⟩
      · rw [hanswer] at hnone
        cases hnone
      · rw [latest_frees R _ hfrees, latest_snoc, written_handle, hw] at hlatest
        simp only [Option.bind_some, if_true, Option.some_or, Option.some.injEq] at hlatest
        rw [hanswer, hcodec] at hdata
        rw [payloadResponse_inj hdata, hlatest]

/-- In every state of a run and after any frees that follow, loads by key
return the latest accepted store, or nothing. -/
def ReadsLatestThroughout (c : Cluster K) (turns : List Turn) : Prop :=
  ∀ run rest frees : List Turn, turns = run ++ rest → (∀ t ∈ frees, t.request.Frees) →
    (c.final R (run ++ frees)).ReadsLatest R (c.history R (run ++ frees))

/-- **Read your writes.** If every request of a run leaves no other copy
behind, a load by key returns the latest accepted store under it, or
nothing; over reliable links this is the case exactly then. -/
theorem reads_latest_iff {c : Cluster K} (hfresh : c.Fresh) {turns : List Turn}
    (hops : ∀ t ∈ turns, t.request.op ≠ .remoteStore) :
    (c.Aligned R turns → c.ReadsLatestThroughout R turns) ∧
      (R.Reliable → (c.Aligned R turns ↔ c.ReadsLatestThroughout R turns)) := by
  have hforward : c.Aligned R turns → c.ReadsLatestThroughout R turns := by
    rintro haligned run rest frees rfl hfrees
    have halign : c.Aligned R (run ++ frees) := by
      rw [aligned_append] at haligned ⊢
      exact ⟨haligned.1, aligned_frees R _ hfrees⟩
    have hops' : ∀ t ∈ run ++ frees, t.request.op ≠ .remoteStore := by
      intro t ht
      rcases List.mem_append.mp ht with ht | ht
      · exact hops t (by simp [ht])
      · exact frees_op (hfrees t ht)
    exact ((hfresh.current R).run R hfresh.sound hops' halign).readsLatest R
      (final_sound R hfresh.sound hops').1
  refine ⟨hforward, fun hlinks => ⟨hforward, fun hreads => ?_⟩⟩
  clear hforward
  induction turns using List.reverseRecOn with
  | nil => trivial
  | append_singleton ts t ih =>
    have hops' : ∀ u ∈ ts, u.request.op ≠ .remoteStore := fun u hu => hops u (by simp [hu])
    obtain ⟨hsound, hplaces⟩ := final_sound R hfresh.sound hops'
    rw [aligned_append]
    refine ⟨ih hops' (fun run rest frees heq => hreads run (rest ++ [t]) frees (by simp [heq])),
      ?_, trivial⟩
    have hlength : ∀ q, some q ∈ (c.final R ts).places → q.length = 64 := by
      intro q hq
      rw [hplaces] at hq
      exact hfresh.names q (by simpa [places] using hq)
    refine alone_of_readsLatest R hlinks (c.history R ts) hsound hlength (hops t (by simp))
      (fun frees hfrees => ?_)
    have hthen := hreads (ts ++ [t]) [] frees (by simp) hfrees
    rw [final_append, history_append, final_append, history_append] at hthen
    exact hthen

/-! ## Runs that can be evaluated -/

instance decidableAlone (c : Cluster K) (t : Turn) : Decidable (c.Alone R t) :=
  match hw : c.wrote R t with
  | none => isTrue (by simp [Alone, hw])
  | some (q, k, data) =>
      decidable_of_iff
        (∀ q' ∈ (c.handle R t).1.places, q' ≠ q →
          (c.handle R t).1.copy q' k = none ∨ (c.handle R t).1.copy q' k = some data)
        (by simp [Alone, hw])

instance decidableAligned : (c : Cluster K) → (ts : List Turn) → Decidable (c.Aligned R ts)
  | _, [] => isTrue trivial
  | c, t :: ts =>
      haveI := decidableAligned (c.handle R t).1 ts
      inferInstanceAs (Decidable (c.Alone R t ∧ (c.handle R t).1.Aligned R ts))

end Cluster

/-- None, texts and integers as keys, the words of CPython, and the
frames of MessagePack. -/
def plainRuntime : Runtime (Option String ⊕ Int) :=
  { plainKeys with
    hexError := fun _ => "non-hexadecimal number found in fromhex() arg at position 0"
    stripeError := fun v => s!"unsupported operand type(s) for %: '{v.typeName}' and 'int'"
    sends := fun m => (m.transmit .msgpack).isSome }

/-- The same over reliable links. -/
def reliableRuntime : Runtime (Option String ⊕ Int) := { plainRuntime with sends := fun _ => true }

/-- A peer's identity. -/
def peerName : String := String.ofList (List.replicate 64 'b')

/-- A node with room for 10 bytes, and a peer with room for 100. -/
def smallPool : Cluster (Option String ⊕ Int) :=
  { cfg := ⟨10, 2, Nat.two_pos, fun _ => 0⟩
    manager := .init _
    chunking := .default
    peers := Dict.empty.set peerName ⟨100, ⟨100, 2, Nat.two_pos, fun _ => 0⟩, .init _, true⟩ }

theorem fresh_smallPool : smallPool.Fresh where
  here := rfl
  there := by
    intro pubkey p hp
    simp only [smallPool, Dict.get_set] at hp
    split at hp
    · cases hp
      exact ⟨rfl, rfl⟩
    · cases hp
  names := by decide +kernel

def storeAs (key : String) (data : Bytes) : Turn :=
  Cluster.ask .store [("key", .str key), ("data", .bin data)]

/-- Two keys, the second of them on the peer. -/
def spreadRun : List Turn := [storeAs "a" [1, 1, 1, 1, 1, 1, 1, 1], storeAs "b" [2, 2, 2, 2]]

theorem reads_latest_iff_spreadRun :
    reliableRuntime.Reliable ∧ smallPool.Aligned reliableRuntime spreadRun ∧
      (smallPool.final reliableRuntime spreadRun).ReadsLatest reliableRuntime
        (smallPool.history reliableRuntime spreadRun) := by
  have haligned : smallPool.Aligned reliableRuntime spreadRun := by decide +kernel
  have hops : ∀ t ∈ spreadRun, t.request.op ≠ .remoteStore := by decide
  have hlinks : reliableRuntime.Reliable := fun _ => rfl
  have hreads := ((Cluster.reads_latest_iff reliableRuntime fresh_smallPool hops).2 hlinks).mp
    haligned spreadRun [] [] (by simp) (by simp)
  exact ⟨hlinks, haligned, by simpa using hreads⟩

/-- One key twice: the second store finds no room here. -/
def overflowRun : List Turn :=
  [storeAs "k" [1, 1, 1, 1, 1, 1, 1, 1], storeAs "k" [2, 2, 2, 2, 2, 2, 2, 2]]

/-- The store that overflowed was accepted, and a load of its key
returns the bytes before it. -/
theorem overflow_reads_old :
    smallPool.Fresh ∧
      latest plainRuntime (plainRuntime.strKey "k") (smallPool.history plainRuntime overflowRun)
        = some [2, 2, 2, 2, 2, 2, 2, 2] ∧
      ((smallPool.final plainRuntime overflowRun).handle plainRuntime
        (Cluster.ask .load [("key", .str "k")])).2
        = payloadResponse [1, 1, 1, 1, 1, 1, 1, 1] .msgpack := by
  have hheld : (smallPool.final plainRuntime overflowRun).manager.loadByKey
      (.inl (plainRuntime.strKey "k")) = some [1, 1, 1, 1, 1, 1, 1, 1] := by
    decide +kernel
  refine ⟨fresh_smallPool, by decide +kernel, ?_⟩
  generalize smallPool.final plainRuntime overflowRun = c at hheld
  have hfound : (c.find plainRuntime (Cluster.ask .load [("key", .str "k")])).2
      = .ok (some [1, 1, 1, 1, 1, 1, 1, 1]) := by
    have hkey : Value.get (Cluster.ask .load [("key", .str "k")]).request.body "key" = some (.str "k") := rfl
    simp only [Cluster.find, show Value.get (Cluster.ask .load [("key", .str "k")]).request.body "block_id" = none from rfl,
      hkey, plainRuntime.key_str, hheld]
  rw [Cluster.handle_find plainRuntime c rfl, hfound]
  rfl

end Memnode.Rpc
