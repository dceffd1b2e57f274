/-
Memnode.Rpc.ShortNames — which peer a short name leads to.

Answers call a peer by the first eight characters of its identity.
`_resolve_peer` takes such a name and returns the first identity of the
`peers` dictionary that begins with it. It does not look for a second
one, so a name that two connected peers share is never refused: it leads
to the one that has been in the dictionary longer.

  §1 histories: peers that come and go, changes of the trust store, and
     requests; `entered` is the event with which a connected peer came;
  §2 the dictionary is in the order of `entered` (`Table.run`);
  §3 a request reads nothing of the name but what it resolves to
     (`handle_named`);
  §4 `short_name_leads_back_iff`: the name leads back to its peer exactly
     when no connected peer with the same eight characters entered before
     it, and otherwise the request is carried out on that peer.
-/
import Memnode.Rpc.PeerOps
import Memnode.Rpc.ReadYourWrites

namespace Memnode.Rpc

open Lib Blocks Replication

variable {K : Type} [DecidableEq K] (D : Display K)

/-! ## §1 Histories -/

/-- The key of a peer, as the handshake returns it. -/
abbrev PublicKey := { key : Bytes // key.length = 32 }

/-- `peer_pubkey.hex()`. -/
def PublicKey.hex (key : PublicKey) : String := toHex key.val

theorem PublicKey.length_hex (key : PublicKey) : key.hex.length = 64 := by
  rw [← String.length_toList, PublicKey.hex, length_toHex, key.property]

namespace Node

/-- What can happen. -/
inductive Event (K : Type) where
  /-- `_register` -/
  | register (key : PublicKey) (peer : Peer K) (name : Value) (addr sas : String)
  /-- a read loop of the peer ends -/
  | disconnect (key : PublicKey)
  /-- the trust store changes, as when consent is given -/
  | trust (g : Peers.Setting) (call : Peers.TrustStore.Call)
  /-- the store behind a connection changes, by requests of other nodes -/
  | elsewhere (key : PublicKey) (peer : Peer K)
  | request (call : Call)

def step (n : Node K) : Event K → Node K
  | .register key peer name addr sas =>
      { n with
        peers := n.peers.set key.hex
          ⟨peer, name, addr, sas, n.trustStore.isVerified (Py.text key.hex)⟩ }
  | .disconnect key => { n with peers := n.peers.erase key.hex }
  | .trust g call => { n with trustStore := (Peers.TrustStore.run D.floats g n.trustStore call).2 }
  | .elsewhere key peer =>
      { n with
        peers := n.peers.map (fun pubkey info =>
          if pubkey = key.hex then { info with peer := peer } else info) }
  | .request call => (n.handle D call).1

def run (n : Node K) (es : List (Event K)) : Node K := es.foldl (step D) n

/-- A node that has just started. -/
def start (cfg : Settings (KeyObject K)) (chunking : Chunking) (trustStore : Peers.TrustStore) : Node K :=
  ⟨cfg, .init cfg, chunking, .empty, trustStore⟩

/-- Event number `i`, for an identity that entered with event `since`. -/
def enters (k : String) (i : Nat) (since : Option Nat) : Event K → Option Nat
  | .register key .. => if k = key.hex then some (since.getD i) else since
  | .disconnect key => if k = key.hex then none else since
  | _ => since

/-- The number of the event with which a connected identity entered. A
registration of one that is connected does not count. -/
def entered (es : List (Event K)) (k : String) : Option Nat :=
  es.zipIdx.foldl (fun since e => enters k e.2 since e.1) none

def since (es : List (Event K)) (k : String) : Nat := (entered es k).getD 0

/-! ## §2 The order of the table -/

omit [DecidableEq K] in
theorem entered_snoc (es : List (Event K)) (e : Event K) (k : String) :
    entered (es ++ [e]) k = enters k es.length (entered es k) e := by
  simp [entered, List.zipIdx_append]

/-- The identities of the table after event `e`. -/
def keysAfter (ks : List String) : Event K → List String
  | .register key .. => if key.hex ∈ ks then ks else ks ++ [key.hex]
  | .disconnect key => ks.filter (fun k => !decide (k = key.hex))
  | _ => ks

theorem keys_step (n : Node K) (e : Event K) :
    (n.step D e).peers.keys = keysAfter n.peers.keys e := by
  cases e with
  | register key peer name addr sas => exact Dict.keys_set _ _ _
  | disconnect key => exact Dict.keys_erase _ _
  | trust g call => rfl
  | elsewhere key peer => exact Dict.keys_map _ _
  | request call => exact keys_handle D n call

theorem keys_run (n : Node K) (es : List (Event K)) :
    (n.run D es).peers.keys = es.foldl keysAfter n.peers.keys := by
  induction es generalizing n with
  | nil => rfl
  | cons e es ih =>
    rw [run, List.foldl_cons, List.foldl_cons, ← keys_step D]
    exact ih (n.step D e)

/-- The table is in the order in which its identities entered. -/
structure Table (es : List (Event K)) (ks : List String) : Prop where
  mem : ∀ k, k ∈ ks ↔ (entered es k).isSome = true
  early : ∀ k i, entered es k = some i → i < es.length
  sorted : ks.Pairwise (fun a b => since es a < since es b)
  names : ∀ k ∈ ks, k.length = 64

omit [DecidableEq K] in
theorem table_nil : Table ([] : List (Event K)) [] where
  mem := by simp [entered]
  early := by simp [entered]
  sorted := List.Pairwise.nil
  names := by simp

omit [DecidableEq K] in
/-- An event that neither connects nor disconnects. -/
theorem Table.keep {es : List (Event K)} {ks : List String} (h : Table es ks) {e : Event K}
    (he : ∀ k, entered (es ++ [e]) k = entered es k) : Table (es ++ [e]) ks := by
  refine ⟨fun k => ?_, fun k i hi => ?_, ?_, h.names⟩
  · rw [he k]
    exact h.mem k
  · rw [he k] at hi
    have hlt := h.early k i hi
    rw [List.length_append]
    omega
  · simp only [since, he]
    exact h.sorted

omit [DecidableEq K] in
theorem Table.register {es : List (Event K)} {ks : List String} (h : Table es ks)
    (key : PublicKey) (peer : Peer K) (name : Value) (addr sas : String) :
    Table (es ++ [.register key peer name addr sas])
      (if key.hex ∈ ks then ks else ks ++ [key.hex]) := by
  have hsnoc := entered_snoc es (.register key peer name addr sas)
  simp only [enters] at hsnoc
  by_cases hmem : key.hex ∈ ks
  · -- the place in the dictionary is kept
    rw [if_pos hmem]
    refine h.keep fun k => ?_
    rw [hsnoc k]
    split
    · rename_i hk
      obtain ⟨i, hi⟩ := Option.isSome_iff_exists.mp ((h.mem k).mp (hk ▸ hmem))
      rw [hi, Option.getD_some]
    · rfl
  · rw [if_neg hmem]
    have hnone : entered es key.hex = none := by
      simpa [h.mem key.hex] using hmem
    have hself : entered (es ++ [.register key peer name addr sas]) key.hex = some es.length := by
      rw [hsnoc, if_pos rfl, hnone, Option.getD_none]
    have hother : ∀ k, k ≠ key.hex →
        entered (es ++ [.register key peer name addr sas]) k = entered es k := by
      intro k hk
      rw [hsnoc, if_neg hk]
    refine ⟨fun k => ?_, fun k i hi => ?_, ?_, fun k hk => ?_⟩
    · by_cases hk : k = key.hex
      · subst hk
        simp [hself]
      · rw [hother k hk, ← h.mem k]
        simp [hk]
    · rw [List.length_append, List.length_singleton]
      by_cases hk : k = key.hex
      · subst hk
        rw [hself] at hi
        cases hi
        exact Nat.lt_succ_self _
      · rw [hother k hk] at hi
        exact Nat.lt_succ_of_lt (h.early k i hi)
    · have hne : ∀ k ∈ ks, k ≠ key.hex := fun k hk heq => hmem (heq ▸ hk)
      refine List.pairwise_append.mpr ⟨?_, List.pairwise_singleton _ _, ?_⟩
      · refine h.sorted.imp_of_mem fun {a b} ha hb hab => ?_
        simpa only [since, hother a (hne a ha), hother b (hne b hb)] using hab
      · intro a ha b hb
        obtain rfl := List.mem_singleton.mp hb
        obtain ⟨i, hi⟩ := Option.isSome_iff_exists.mp ((h.mem a).mp ha)
        have hlt := h.early a i hi
        simpa only [since, hother a (hne a ha), hi, hself, Option.getD_some] using hlt
    · rcases List.mem_append.mp hk with hk | hk
      · exact h.names k hk
      · rw [List.mem_singleton.mp hk]
        exact key.length_hex

omit [DecidableEq K] in
theorem Table.disconnect {es : List (Event K)} {ks : List String} (h : Table es ks)
    (key : PublicKey) :
    Table (es ++ [.disconnect key]) (ks.filter (fun k => !decide (k = key.hex))) := by
  have hsnoc := entered_snoc es (.disconnect key : Event K)
  simp only [enters] at hsnoc
  refine ⟨fun k => ?_, fun k i hi => ?_, ?_, fun k hk => h.names k (List.mem_filter.mp hk).1⟩
  · rw [hsnoc k, List.mem_filter, h.mem k]
    by_cases hk : k = key.hex <;> simp [hk]
  · rw [hsnoc k] at hi
    rw [List.length_append]
    split at hi
    · cases hi
    · have hlt := h.early k i hi
      omega
  · refine (h.sorted.filter _).imp_of_mem fun {a b} ha hb hab => ?_
    have hne : ∀ k ∈ ks.filter (fun k => !decide (k = key.hex)), k ≠ key.hex := by
      intro k hk
      simpa using (List.mem_filter.mp hk).2
    simpa only [since, hsnoc, if_neg (hne a ha), if_neg (hne b hb)] using hab

omit [DecidableEq K] in
theorem Table.step {es : List (Event K)} {ks : List String} (h : Table es ks) (e : Event K) :
    Table (es ++ [e]) (keysAfter ks e) := by
  cases e with
  | register key peer name addr sas => exact h.register key peer name addr sas
  | disconnect key => exact h.disconnect key
  | trust | elsewhere | request => exact h.keep fun k => entered_snoc es _ k

/-- The table of a node that has just started, after any history. -/
theorem Table.run (cfg : Settings (KeyObject K)) (chunking : Chunking) (trustStore : Peers.TrustStore)
    (es : List (Event K)) :
    Table es ((start cfg chunking trustStore).run D es).peers.keys := by
  rw [keys_run]
  induction es using List.reverseRecOn with
  | nil => exact table_nil
  | append_singleton es e ih =>
    rw [List.foldl_append, List.foldl_cons, List.foldl_nil]
    exact ih.step e

end Node

/-! ## §3 What a request reads of a name -/

/-- The request with another name for its peer. -/
def named (name : String) (body : Body) : Body := body ++ [(.str "peer", .str name)]

def Call.named (name : String) : Call → Call
  | .blocks t => .blocks { t with request := { t.request with body := Rpc.named name t.request.body } }
  | .peer op g body => .peer op g (Rpc.named name body)

theorem get_named (name : String) (body : Body) (field : String) :
    Value.get (named name body) field
      = if field = "peer" then some (.str name) else Value.get body field := by
  by_cases hfield : field = "peer"
  · simp [Value.get, named, hfield]
  · have hne : ¬ "peer" = field := fun h => hfield h.symm
    simp [Value.get, named, hfield, hne]

omit [DecidableEq K] in
/-- The payload and the other fields are read as before. -/
theorem requestPayload_named (R : Runtime K) (name : String) (body : Body) :
    requestPayload R (named name body) = requestPayload R body := by
  simp [requestPayload, Reading.requestPayload, get_named]

omit [DecidableEq K] in
theorem allowRemote_named (R : Runtime K) (name : String) (body : Body) :
    allowRemote R (named name body) = allowRemote R body := by
  simp [allowRemote, Reading.allowRemote, get_named]

theorem attempt_named (R : Runtime K) {cfg : Settings (KeyObject K)} (m : BlockManager cfg)
    (sh : Shuffles cfg.stripeCount) (name : String) (body : Body) :
    attempt R m sh (named name body) = attempt R m sh body := by
  simp only [attempt, requestPayload_named, get_named]
  rfl

/-- The loop over the peers reads nothing of the request. -/
theorem Cluster.askPeers_request (R : Runtime K) (t : Turn) (r : Request) (key : Value)
    (pubkeys : List String) (c : Cluster K) :
    askPeers R { t with request := r } key pubkeys c = askPeers R t key pubkeys c := by
  induction pubkeys generalizing c with
  | nil => rfl
  | cons pubkey rest ih =>
    simp only [askPeers, ih]
    rfl

/-- A block operation is the same under two names that resolve alike. -/
theorem Cluster.handle_named (R : Runtime K) {c : Cluster K} {t : Turn} {name : Value} {q : String}
    (hname : Value.get t.request.body "peer" = some name)
    (hq : c.resolvePeer R.toInterpreter (.str q) = c.resolvePeer R.toInterpreter name) :
    c.handle R { t with request := { t.request with body := named q t.request.body } }
      = c.handle R t := by
  obtain ⟨⟨op, body, codec⟩, here, there, reqId, stream, late⟩ := t
  have hget := get_named q body
  have hpayload := requestPayload_named R q body
  have hatPeer : ∀ act, c.atPeer R (named q body) act = c.atPeer R body act := by
    intro act
    have hname' : Value.get body "peer" = some name := hname
    simp only [Cluster.atPeer, hget, hname', if_true, hq]
  unfold Cluster.handle Cluster.dispatch
  cases op with
  | store =>
    simp only [Cluster.store, Cluster.overflow, Cluster.storeRemote, attempt_named,
      allowRemote_named]
  | load =>
    have hask := Cluster.askPeers_request R
      ⟨⟨.load, body, codec⟩, here, there, reqId, stream, late⟩ ⟨.load, named q body, codec⟩
    simp [Cluster.find, hask, Cluster.loadRemoteByKeyAnywhere, hget, allowRemote_named]
  | free => simp [Cluster.free, hget]
  | remoteStore => simp [Cluster.remoteStore, Cluster.storeRemote, hget, hpayload, hatPeer]
  | remoteLoad => simp [Cluster.remoteLoad, Cluster.loadRemote, hget, hatPeer]
  | remoteFree => simp [Cluster.remoteFree, Cluster.freeRemote, hget, hatPeer]

namespace Node

/-- So is every request. -/
theorem handle_named {n : Node K} {call : Call} {name : Value} {q : String}
    (hname : Value.get call.body "peer" = some name)
    (hq : n.resolvePeer D (.str q) = n.resolvePeer D name) :
    n.handle D (call.named q) = n.handle D call := by
  cases call with
  | blocks t =>
    have hblocks := Cluster.handle_named D.toRuntime (c := n.cluster) hname hq
    simp only [Call.named, handle, hblocks]
  | peer op g body =>
    have hget := get_named q body
    have honPeer : ∀ act, n.onPeer D (named q body) act = n.onPeer D body act := by
      intro act
      have hname' : Value.get body "peer" = some name := hname
      simp only [onPeer, hget, hname', if_true, hq]
    have hdispatch : n.dispatchPeer D g (named q body) op = n.dispatchPeer D g body op := by
      cases op with
      | peers => rfl
      | verifyPeer =>
        have hat : n.verifyPeerAt D g (named q body) = n.verifyPeerAt D g body := by
          funext pubkey
          simp [verifyPeerAt, hget]
        simp only [dispatchPeer, honPeer, hat]
      | revokePeer => simp [dispatchPeer, revokePeer, honPeer, hget]
      | pair =>
        have hat : n.pairAt D (named q body) = n.pairAt D body := by
          funext pubkey
          simp [pairAt, qrFields, hget]
        simp only [dispatchPeer, honPeer, hat]
    simp only [Call.named, handle, hdispatch]

/-! ## §4 Where a short name leads -/

/-- The answer shows `text` as the name of a peer. -/
def Shows (answer : Answer) (text : String) : Prop :=
  ("peer", .text (Py.text text)) ∈ answer ∨
    ∃ items fields, ("peers", .foreign (.list items)) ∈ answer ∧ .dict fields ∈ items ∧
      Py.get fields "pubkey" = some (.str (Py.text text))

/-- The answer to a request is about the connected peer `p` and says so:
it is in the list, it took a block that found no room here, or the
request was resolved to it and the answer repeats its name. -/
inductive Reports (n : Node K) : Call → String → Prop where
  | listed {p : String} (g : Peers.Setting) (body : Body) (hp : p ∈ n.peers.keys) :
      Reports n (.peer .peers g body) p
  | overflowed {p : String} {b : BlockId} (t : Turn) (hop : t.request.op = .store)
      (hp : (n.cluster.store D.toRuntime t).2 = .there p b) :
      Reports n (.blocks t) p
  | resolved {p : String} {name : Value} (call : Call)
      (hname : Value.get call.body "peer" = some name) (hp : n.resolvePeer D name = .ok p)
      (hanswer : ("peer", .text (Py.text (short p))) ∈ (n.handle D call).2) : Reports n call p

theorem Reports.shows {D : Display K} {n : Node K} {call : Call} {p : String}
    (h : Reports D n call p) : Shows (n.handle D call).2 (short p) := by
  cases h with
  | listed g body hp =>
    obtain ⟨info, hinfo⟩ := (n.peers.mem_keys_iff p).mp hp
    have hentry := (n.peers.get_eq_some_iff p info).mp hinfo
    refine Or.inr ⟨_, _, List.mem_cons_of_mem _ (List.mem_singleton_self _),
      List.mem_map.mpr ⟨(p, info), hentry, rfl⟩, ?_⟩
    simp [Py.get]
  | overflowed t hop hp =>
    refine Or.inl ?_
    simp [handle, Cluster.handle, Cluster.dispatch, Cluster.answerOf, hop, hp, Stored.response]
  | resolved call hname hp hanswer => exact Or.inl hanswer

theorem toList_short (p : String) : (short p).toList = p.toList.take 8 := by
  rw [short, String.toList_ofList]

/-- What begins with the short name of `p` has the same short name. -/
theorem startsWith_short_iff {p : String} (hp : 8 ≤ p.length) (q : String) :
    (short p).toList.isPrefixOf q.toList = true ↔ short q = short p := by
  have hlength : (p.toList.take 8).length = 8 := by
    rw [List.length_take, String.length_toList]
    omega
  rw [toList_short, List.isPrefixOf_iff_prefix, List.prefix_iff_eq_take, hlength,
    ← String.toList_inj, toList_short, toList_short]
  exact eq_comm

/-- In a list in the order of `f`, the first that passes is the least. -/
theorem find?_eq_some_iff_least {α : Type} {l : List α} {f : α → Nat} {pred : α → Bool}
    (hsorted : l.Pairwise (fun a b => f a < f b)) {p : α} (hp : p ∈ l) (hpred : pred p = true) :
    l.find? pred = some p ↔ ∀ q ∈ l, pred q = true → f p ≤ f q := by
  constructor
  · intro hfind q hq hpass
    obtain ⟨_, before, after, rfl, hbefore⟩ := List.find?_eq_some_iff_append.mp hfind
    rcases List.mem_append.mp hq with hq | hq
    · have hfails := hbefore q hq
      simp [hpass] at hfails
    · rcases List.mem_cons.mp hq with rfl | hq
      · exact Nat.le_refl _
      · have hrest := (List.pairwise_append.mp hsorted).2.1
        exact Nat.le_of_lt ((List.pairwise_cons.mp hrest).1 q hq)
  · intro hleast
    obtain ⟨before, after, rfl⟩ := List.append_of_mem hp
    refine List.find?_eq_some_iff_append.mpr ⟨hpred, before, after, rfl, fun q hq => ?_⟩
    have hlt := (List.pairwise_append.mp hsorted).2.2 q hq p (List.mem_cons_self ..)
    cases hpass : pred q with
    | false => rfl
    | true =>
      have hle := hleast q (List.mem_append_left _ hq) hpass
      omega

omit [DecidableEq K] in
theorem resolvePeer_str_iff (n : Node K) (text q : String) :
    n.resolvePeer D (.str text) = .ok q ↔
      n.peers.keys.find? (fun full => text.toList.isPrefixOf full.toList) = some q := by
  rw [← keys_cluster n]
  simp only [resolvePeer, Cluster.resolvePeer]
  cases n.cluster.peers.keys.find? (fun full => text.toList.isPrefixOf full.toList) with
  | none => simp
  | some full => simp

/-- **Where a short name leads.** After any history of connections,
disconnections, changes of the trust store and requests, one of which was
answered with the first eight characters of `p`, and with `p` connected:
`_resolve_peer` takes these characters to `p` if and only if no connected
peer that shares them entered before `p` did. It always takes them to
some connected peer that has them, and every request that uses them is
carried out and answered as if that peer's identity had been written out. -/
theorem short_name_leads_back_iff (cfg : Settings (KeyObject K)) (chunking : Chunking)
    (trustStore : Peers.TrustStore) (es es' : List (Event K)) (call : Call) {p : String}
    (hreported : Reports D ((start cfg chunking trustStore).run D es) call p)
    (hconnected : p ∈ ((start cfg chunking trustStore).run D
      (es ++ .request call :: es')).peers.keys) :
    let history := es ++ .request call :: es'
    let n := (start cfg chunking trustStore).run D history
    Shows (((start cfg chunking trustStore).run D es).handle D call).2 (short p) ∧
      (n.resolvePeer D (.str (short p)) = .ok p ↔
        ∀ q ∈ n.peers.keys, short q = short p → since history p ≤ since history q) ∧
      ∃ q ∈ n.peers.keys, short q = short p ∧ n.resolvePeer D (.str (short p)) = .ok q ∧
        ∀ later : Call, Value.get later.body "peer" = some (.str (short p)) →
          n.handle D (later.named q) = n.handle D later := by
  intro history n
  have htable : Table history n.peers.keys := Table.run D cfg chunking trustStore history
  have hlong : 8 ≤ p.length := by
    rw [htable.names p hconnected]
    omega
  have hstarts := startsWith_short_iff hlong
  refine ⟨hreported.shows, ?_, ?_⟩
  · have hfirst : n.peers.keys.find? (fun full => (short p).toList.isPrefixOf full.toList) = some p ↔
        ∀ q ∈ n.peers.keys, (short p).toList.isPrefixOf q.toList = true →
          since history p ≤ since history q :=
      find?_eq_some_iff_least htable.sorted hconnected ((hstarts p).mpr rfl)
    refine (resolvePeer_str_iff D n (short p) p).trans (hfirst.trans ?_)
    constructor
    · intro hleast q hq hshort
      exact hleast q hq ((hstarts q).mpr hshort)
    · intro hleast q hq hpass
      exact hleast q hq ((hstarts q).mp hpass)
  · obtain ⟨q, hfind⟩ : ∃ q, n.peers.keys.find?
        (fun full => (short p).toList.isPrefixOf full.toList) = some q :=
      Option.isSome_iff_exists.mp
        (List.find?_isSome.mpr ⟨p, hconnected, (hstarts p).mpr rfl⟩)
    have hq : q ∈ n.peers.keys := List.mem_of_find?_eq_some hfind
    have hresolve := (resolvePeer_str_iff D n (short p) q).mpr hfind
    have hself : n.resolvePeer D (.str q) = .ok q := by
      refine Cluster.resolvePeer_self (n := 64) ?_ ?_ D.toInterpreter
      · rw [keys_cluster]
        exact htable.names
      · rw [keys_cluster]
        exact hq
    have hpass : (short p).toList.isPrefixOf q.toList = true := by
      simpa using List.find?_some hfind
    exact ⟨q, hq, (hstarts q).mp hpass, hresolve,
      fun later hname => handle_named D hname (hself.trans hresolve.symm)⟩

end Node

/-! ## §5 A name that two peers share -/

/-- Texts are quoted as they are, and there is no `qrcode` package. -/
def plainDisplay : Display (Option String ⊕ Int) :=
  { plainRuntime with
    floats := .spelled
    trustError := fun _ => "cannot save"
    quote := fun v =>
      match v with
      | .str s => .ok s
      | _ => .error "quote_from_bytes() expected bytes"
    renderQrAscii := fun _ => none }

/-- Two keys that begin alike. -/
def homeKey : PublicKey := ⟨List.replicate 32 0, rfl⟩

def guestKey : PublicKey := ⟨List.replicate 31 0 ++ [1], rfl⟩

def connects (key : PublicKey) : Node.Event (Option String ⊕ Int) :=
  .register key ⟨100, ⟨100, 2, Nat.two_pos, fun _ => 0⟩, .init _, true⟩ (.str "peer") "10.0.0.2:7" "123456"

/-- Consent is given to both, and both connect. -/
def bothConnect : List (Node.Event (Option String ⊕ Int)) :=
  [.trust Peers.TrustStore.plainSetting
      (.trust (Py.text homeKey.hex) .none false (Py.text "tofu") []),
    .trust Peers.TrustStore.plainSetting
      (.trust (Py.text guestKey.hex) .none false (Py.text "tofu") []),
    connects homeKey, connects guestKey]

def askPeers : Call := .peer .peers Peers.TrustStore.plainSetting []

/-- `verify_peer` by the short name both have. -/
def verifyShort : Call :=
  .peer .verifyPeer Peers.TrustStore.plainSetting [(.str "peer", .str (short homeKey.hex))]

def pooled : Node (Option String ⊕ Int) :=
  .start ⟨10, 2, Nat.two_pos, fun _ => 0⟩ .default Peers.TrustStore.fresh

theorem homeKey_ne_guestKey : homeKey.hex ≠ guestKey.hex := by
  rw [Ne, ← String.toList_inj, PublicKey.hex, PublicKey.hex, toHex_toList, toHex_toList]
  decide

/-- Both identities begin with the short name. -/
theorem startsWith_short_homeKey :
    (short homeKey.hex).toList.isPrefixOf homeKey.hex.toList = true ∧
      (short homeKey.hex).toList.isPrefixOf guestKey.hex.toList = true := by
  rw [Node.toList_short, PublicKey.hex, PublicKey.hex, toHex_toList, toHex_toList]
  decide

/-- The table after both connected and something else happened. -/
theorem keys_bothConnect (rest : List (Node.Event (Option String ⊕ Int))) :
    (pooled.run plainDisplay (bothConnect ++ rest)).peers.keys
      = rest.foldl Node.keysAfter [homeKey.hex, guestKey.hex] := by
  have hboth : bothConnect.foldl Node.keysAfter pooled.peers.keys
      = [homeKey.hex, guestKey.hex] := by
    simp [bothConnect, connects, Node.keysAfter, pooled, Node.start, Dict.keys, Dict.empty,
      homeKey_ne_guestKey.symm]
  rw [Node.keys_run, List.foldl_append, hboth]

theorem reports_homeKey :
    Node.Reports plainDisplay (pooled.run plainDisplay bothConnect) askPeers homeKey.hex := by
  have hkeys := keys_bothConnect []
  rw [List.append_nil] at hkeys
  refine .listed _ _ ?_
  rw [hkeys]
  exact List.mem_cons_self ..

/-- The one that connected first is the one the name leads to. -/
theorem short_name_leads_back_iff_bothConnect :
    Node.Reports plainDisplay (pooled.run plainDisplay bothConnect) askPeers homeKey.hex ∧
      (pooled.run plainDisplay (bothConnect ++ [.request askPeers])).resolvePeer plainDisplay
        (.str (short homeKey.hex)) = .ok homeKey.hex := by
  have hkeys : (pooled.run plainDisplay (bothConnect ++ [.request askPeers])).peers.keys
      = [homeKey.hex, guestKey.hex] := keys_bothConnect [.request askPeers]
  have hconnected : homeKey.hex
      ∈ (pooled.run plainDisplay (bothConnect ++ [.request askPeers])).peers.keys := by
    rw [hkeys]
    exact List.mem_cons_self ..
  refine ⟨reports_homeKey, (Node.short_name_leads_back_iff plainDisplay _ _ _ bothConnect []
    askPeers reports_homeKey hconnected).2.1.mpr fun q hq _ => ?_⟩
  have hq' : q ∈ [homeKey.hex, guestKey.hex] := by
    rw [← hkeys]
    exact hq
  have hfirst : Node.since (bothConnect ++ [.request askPeers]) homeKey.hex = 2 := by
    simp [Node.since, Node.entered, Node.enters, bothConnect, connects, homeKey_ne_guestKey]
  have hsecond : Node.since (bothConnect ++ [.request askPeers]) guestKey.hex = 3 := by
    simp [Node.since, Node.entered, Node.enters, bothConnect, connects, homeKey_ne_guestKey.symm]
  rw [hfirst]
  rcases List.mem_cons.mp hq' with rfl | hq'
  · exact Nat.le_of_eq hfirst.symm
  · rw [List.mem_singleton.mp hq', hsecond]
    exact Nat.le_succ 2

/-- The peer is listed, and its short name leads to it. It reconnects,
and now the name leads to the other one: `verify_peer` marks that one as
verified. -/
theorem short_name_leads_elsewhere :
    let es := bothConnect
    let es' := [.disconnect homeKey, connects homeKey]
    let before := pooled.run plainDisplay (es ++ [.request askPeers])
    let n := pooled.run plainDisplay (es ++ .request askPeers :: es')
    Node.Reports plainDisplay (pooled.run plainDisplay es) askPeers homeKey.hex ∧
      homeKey.hex ∈ n.peers.keys ∧
      before.resolvePeer plainDisplay (.str (short homeKey.hex)) = .ok homeKey.hex ∧
      n.resolvePeer plainDisplay (.str (short homeKey.hex)) = .ok guestKey.hex ∧
      homeKey.hex ≠ guestKey.hex ∧
      (n.handle plainDisplay verifyShort).1.trustStore.isVerified (Py.text guestKey.hex) = true ∧
      (n.handle plainDisplay verifyShort).1.trustStore.isVerified (Py.text homeKey.hex) = false := by
  intro es es' before n
  have hkeys : before.peers.keys = [homeKey.hex, guestKey.hex] := keys_bothConnect _
  have hkeys' : n.peers.keys = [guestKey.hex, homeKey.hex] := by
    refine (keys_bothConnect _).trans ?_
    simp [es', connects, Node.keysAfter, homeKey_ne_guestKey, homeKey_ne_guestKey.symm]
  have hbefore : before.resolvePeer plainDisplay (.str (short homeKey.hex)) = .ok homeKey.hex := by
    rw [Node.resolvePeer_str_iff, hkeys, List.find?_cons, startsWith_short_homeKey.1]
  have hafter : n.resolvePeer plainDisplay (.str (short homeKey.hex)) = .ok guestKey.hex := by
    rw [Node.resolvePeer_str_iff, hkeys', List.find?_cons, startsWith_short_homeKey.2]
  refine ⟨reports_homeKey, ?_, hbefore, hafter, homeKey_ne_guestKey, by decide +kernel,
    by decide +kernel⟩
  rw [hkeys']
  exact List.mem_cons_of_mem _ (List.mem_singleton_self _)

end Memnode.Rpc
