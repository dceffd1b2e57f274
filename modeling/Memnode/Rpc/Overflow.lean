/-
Memnode.Rpc.Overflow — where a store goes that finds no room here.

The pool is a node and its connected peers, each of which advertised
the `max_memory_bytes` of its BlockManager when it connected. A store
that runs out of memory here is tried on one peer: the one
`best_peer_for_store` names, which is the first of those with the largest
advertised quota. What the peers hold by then plays no part in the choice,
nor whether the writer of the connection still runs. So the store is
answered with `ok` exactly when there is room here or on that peer, as
far as it can be reached, whether or not another peer has room
(`overflow_complete`).

Room is what `Blocks.Eviction` says of it: the CACHE blocks that are
taken cover what is missing (`MakesRoom`), or do not (`IsFull`). Keys are
any values, so some of them may have no hash, and the quotas may count
blocks that are gone (`Owing`).

  §1 the peer that is asked;
  §2 the states of the pool;
  §3 when a store is accepted.
-/
import Memnode.Blocks.Eviction
import Memnode.Rpc.FailedStore

namespace Memnode.Rpc

open Lib Blocks Replication AnyKey

variable {K : Type} [DecidableEq K]

/-! ## §1 The peer that is asked -/

/-- The running maximum of `maxQuota`. -/
theorem foldl_maxQuota (rest : List (String × Int)) :
    ∀ c : String × Int,
      rest.foldl (fun best c => if best.2 < c.2 then c else best) c ∈ c :: rest ∧
      ∀ x ∈ c :: rest, x.2 ≤ (rest.foldl (fun best c => if best.2 < c.2 then c else best) c).2 := by
  induction rest with
  | nil =>
    intro c
    refine ⟨List.mem_singleton_self c, ?_⟩
    intro x hx
    rw [List.mem_singleton.mp hx]
    exact Int.le_refl _
  | cons y rest ih =>
    intro c
    rw [List.foldl_cons]
    obtain ⟨hmem, hmax⟩ := ih (if c.2 < y.2 then y else c)
    -- the best of the first two is one of them, and at least both
    have hfirst : (if c.2 < y.2 then y else c) = c ∨ (if c.2 < y.2 then y else c) = y := by
      split
      · exact Or.inr rfl
      · exact Or.inl rfl
    have hboth : c.2 ≤ (if c.2 < y.2 then y else c).2 ∧ y.2 ≤ (if c.2 < y.2 then y else c).2 := by
      split <;> omega
    have hseed := hmax _ (List.mem_cons_self ..)
    constructor
    · rcases List.mem_cons.mp hmem with heq | hrest
      · rw [heq]
        rcases hfirst with h | h <;> rw [h] <;> simp
      · exact List.mem_cons_of_mem _ (List.mem_cons_of_mem _ hrest)
    · intro x hx
      rcases List.mem_cons.mp hx with rfl | hx
      · exact hboth.1.trans hseed
      · rcases List.mem_cons.mp hx with rfl | hx
        · exact hboth.2.trans hseed
        · exact hmax x (List.mem_cons_of_mem _ hx)

theorem maxQuota_spec {l : List (String × Int)} (hl : l ≠ []) :
    ∃ best, maxQuota l = some best.1 ∧ best ∈ l ∧ ∀ x ∈ l, x.2 ≤ best.2 := by
  cases l with
  | nil => exact absurd rfl hl
  | cons c rest =>
    obtain ⟨hmem, hmax⟩ := foldl_maxQuota rest c
    exact ⟨_, rfl, hmem, hmax⟩

namespace Cluster

/-- Every peer advertised the size of its own store. -/
def Honest (c : Cluster K) : Prop :=
  ∀ peer p, c.peers.get peer = some p → p.remoteQuota = p.cfg.maxMemoryBytes

omit [DecidableEq K] in
/-- Some peer could take the block if it were empty: then one is asked,
and none is larger. -/
theorem bestPeerForStore_spec {c : Cluster K} (h : c.Honest) {size : Nat} {peer : String}
    {p : Peer K} (hp : c.peers.get peer = some p) (hfits : size ≤ p.cfg.maxMemoryBytes) :
    ∃ best q, c.bestPeerForStore size = some best ∧ c.peers.get best = some q ∧
      ∀ other o, c.peers.get other = some o → o.cfg.maxMemoryBytes ≤ q.cfg.maxMemoryBytes := by
  have hcandidate : ∀ {other : String} {o : Peer K}, c.peers.get other = some o →
      size ≤ o.cfg.maxMemoryBytes →
      (other, o.remoteQuota) ∈ (c.peers.entries.filter
        (fun e => (size : Int) ≤ e.2.remoteQuota)).map (fun e => (e.1, e.2.remoteQuota)) := by
    intro other o ho hsize
    refine List.mem_map.mpr ⟨(other, o), List.mem_filter.mpr ⟨?_, ?_⟩, rfl⟩
    · exact (Dict.get_eq_some_iff ..).mp ho
    · rw [decide_eq_true_eq, h other o ho]
      exact_mod_cast hsize
  obtain ⟨best, hbest, hmem, hmax⟩ := maxQuota_spec (List.ne_nil_of_mem (hcandidate hp hfits))
  obtain ⟨⟨name, q⟩, hentry, rfl⟩ := List.mem_map.mp hmem
  obtain ⟨hentry, hquota⟩ := List.mem_filter.mp hentry
  have hq : c.peers.get name = some q := (Dict.get_eq_some_iff ..).mpr hentry
  have hsize : size ≤ q.cfg.maxMemoryBytes := by
    rw [decide_eq_true_eq, h name q hq] at hquota
    exact_mod_cast hquota
  refine ⟨name, q, hbest, hq, ?_⟩
  intro other o ho
  by_cases hother : size ≤ o.cfg.maxMemoryBytes
  · have hle : o.remoteQuota ≤ q.remoteQuota := hmax _ (hcandidate ho hother)
    rw [h other o ho, h name q hq] at hle
    exact_mod_cast hle
  · omega

/-! ## §2 The states of the pool -/

/-- The states of the pool after any requests, of clients of this node
and of clients and other peers of its peers. -/
inductive Reachable (R : Runtime K) : Cluster K → Prop where
  | start {c : Cluster K} : c.Fresh → c.Honest → Reachable R c
  | request {c : Cluster K} (t : Turn) : Reachable R c → Reachable R (c.handle R t).1
  | peerStore {c : Cluster K} {pubkey : String} {p : Peer K}
      (hp : c.peers.get pubkey = some p) (sh : Shuffles p.cfg.stripeCount)
      (r : StoreReq (KeyObject K)) : Reachable R c →
      Reachable R (c.withPeer pubkey { p with manager := (AnyKey.store p.manager sh r).1 })
  | peerFree {c : Cluster K} {pubkey : String} {p : Peer K}
      (hp : c.peers.get pubkey = some p) (b : BlockId) : Reachable R c →
      Reachable R (c.withPeer pubkey { p with manager := (AnyKey.free p.manager b).1 })

/-- The quotas of the pool count what is stored, and were advertised. -/
structure Balanced (c : Cluster K) : Prop where
  honest : c.Honest
  here : Owing c.manager
  there : ∀ pubkey p, c.peers.get pubkey = some p → Owing p.manager

theorem Fresh.balanced {c : Cluster K} (h : c.Fresh) (hhonest : c.Honest) : c.Balanced := by
  refine ⟨hhonest, ?_, fun pubkey p hp => ?_⟩
  · rw [h.here]
    exact ⟨0, .init⟩
  · rw [(h.there pubkey p hp).1]
    exact ⟨0, .init⟩

/-- What the store of a peer may become. -/
structure Follows (p p' : Peer K) : Prop where
  quota : p'.remoteQuota = p.remoteQuota
  cfg : p'.cfg = p.cfg
  owing : Owing p.manager → Owing p'.manager

namespace Balanced

variable {c : Cluster K}

omit [DecidableEq K] in
theorem withPeer (h : c.Balanced) {pubkey : String} {p p' : Peer K}
    (hp : c.peers.get pubkey = some p) (hfollows : Follows p p') :
    (c.withPeer pubkey p').Balanced := by
  refine ⟨fun peer q hq => ?_, h.here, fun peer q hq => ?_⟩
  all_goals
    simp only [Cluster.withPeer, Dict.get_set] at hq
    split at hq
  · cases hq
    rw [hfollows.quota, hfollows.cfg]
    exact h.honest pubkey p hp
  · exact h.honest peer q hq
  · cases hq
    exact hfollows.owing (h.there pubkey p hp)
  · exact h.there peer q hq

omit [DecidableEq K] in
theorem manager (h : c.Balanced) {m : BlockManager c.cfg} (hm : Owing m) :
    ({ c with manager := m } : Cluster K).Balanced := ⟨h.honest, hm, h.there⟩

variable (R : Runtime K)

omit [DecidableEq K] in
theorem callPeer {α : Type} (h : c.Balanced) (pubkey : String) (messages : List Message)
    (lost : RemoteFailure) {act : Peer K → Peer K × Except RemoteError α}
    (hact : ∀ p, Follows p (act p).1) : (c.callPeer R pubkey messages lost act).1.Balanced := by
  unfold Cluster.callPeer
  split
  · exact h
  · rename_i p hp
    obtain ⟨hget, -⟩ := connected_eq_some.mp hp
    split
    · exact h.withPeer hget (hact p)
    · exact h.withPeer hget ⟨rfl, rfl, id⟩

theorem storeRemote (h : c.Balanced) (t : Turn) (pubkey : String) (data : Bytes) (d : Durability)
    (key : Value) : (c.storeRemote R t pubkey data d key).1.Balanced := by
  refine h.callPeer R pubkey _ _ (fun p => ?_)
  unfold Peer.storeRemote
  dsimp only
  split
  · exact ⟨rfl, rfl, id⟩
  · exact ⟨rfl, rfl, fun hp => AnyKey.Owing.store hp _ _⟩

theorem loadRemote (h : c.Balanced) (t : Turn) (pubkey : String) (block key : Value) :
    (c.loadRemote R t pubkey block key).1.Balanced :=
  h.callPeer R pubkey _ _ (fun _ => ⟨rfl, rfl, id⟩)

theorem freeRemote (h : c.Balanced) (t : Turn) (pubkey : String) (block : Value) :
    (c.freeRemote R t pubkey block).1.Balanced := by
  refine h.callPeer R pubkey _ _ (fun p => ?_)
  unfold Peer.freeRemote
  split
  · exact ⟨rfl, rfl, id⟩
  · exact ⟨rfl, rfl, fun hp => AnyKey.Owing.free hp _⟩

theorem askPeers (t : Turn) (key : Value) (pubkeys : List String) :
    ∀ {c : Cluster K}, c.Balanced → (askPeers R t key pubkeys c).1.Balanced := by
  induction pubkeys with
  | nil => exact fun h => h
  | cons pubkey rest ih =>
    intro c h
    have hload := h.loadRemote R t pubkey .nil key
    unfold Cluster.askPeers
    split
    · rename_i heq
      rwa [heq] at hload
    · rename_i heq
      rw [heq] at hload
      exact ih hload

theorem find (h : c.Balanced) (t : Turn) : (c.find R t).1.Balanced := by
  unfold Cluster.find
  split
  · exact h
  · split
    · exact h
    · split
      · exact h
      · split
        · exact h
        · split
          · exact askPeers R t _ _ h
          · exact h

theorem attempt (h : c.Balanced) (sh : Shuffles c.cfg.stripeCount) (body : Body) :
    Owing (attempt R c.manager sh body).1 := by
  unfold Rpc.attempt
  split
  · exact h.here
  · exact h.here
  · dsimp only
    split
    · exact h.here
    · rename_i data _ _ d _
      have hstore := AnyKey.Owing.store h.here sh
        (storeArguments R.toInterpreter data d ((Value.get body "key").getD .nil))
      split <;> (rename_i heq; rw [heq] at hstore; exact hstore)

theorem store (h : c.Balanced) (t : Turn) : (c.store R t).1.Balanced := by
  have hhere := h.manager (h.attempt R (t.here c.cfg.stripeCount) t.request.body)
  unfold Cluster.store
  split
  · rename_i heq
    rwa [heq] at hhere
  · rename_i m e data d key heq
    rw [heq] at hhere
    split
    · unfold Cluster.overflow
      split
      · exact hhere
      · rename_i peer _
        have hthere := hhere.storeRemote R t peer data d key
        split
        · rename_i heq
          rwa [heq] at hthere
        · rename_i heq
          rw [heq] at hthere
          split <;> exact hthere
    · exact hhere

omit [DecidableEq K] in
theorem atPeer (h : c.Balanced) (body : Body) {act : String → Cluster K × Except String Answer}
    (hact : ∀ pubkey, (act pubkey).1.Balanced) : (c.atPeer R body act).1.Balanced := by
  rcases atPeer_cases R c body act with heq | ⟨pubkey, heq⟩
  · rw [heq]
    exact h
  · rw [heq]
    exact hact pubkey

theorem free (h : c.Balanced) (body : Body) : (c.free R body).1.Balanced := by
  unfold Cluster.free
  split
  · exact h
  · split
    · exact h
    · exact h.manager (AnyKey.Owing.free h.here _)

theorem remoteStore (h : c.Balanced) (t : Turn) : (c.remoteStore R t).1.Balanced := by
  unfold Cluster.remoteStore
  split
  · exact h
  · exact h
  · dsimp only
    split
    · exact h
    · refine h.atPeer R _ (fun pubkey => ?_)
      rw [remoteAnswer_fst]
      exact h.storeRemote R t pubkey _ _ _

theorem remoteFree (h : c.Balanced) (t : Turn) : (c.remoteFree R t).1.Balanced := by
  refine h.atPeer R _ (fun pubkey => ?_)
  split
  · exact h
  · rw [remoteAnswer_fst]
    exact h.freeRemote R t pubkey _

theorem handle (h : c.Balanced) (t : Turn) : (c.handle R t).1.Balanced := by
  unfold Cluster.handle dispatch
  cases t.request.op with
  | store => exact h.store R t
  | load => exact h.find R t
  | free => exact h.free R t.request.body
  | remoteStore => exact h.remoteStore R t
  | remoteLoad =>
    refine h.atPeer R _ (fun pubkey => ?_)
    rw [remoteAnswer_fst]
    exact h.loadRemote R t pubkey _ _
  | remoteFree => exact h.remoteFree R t

end Balanced

theorem Reachable.balanced {R : Runtime K} {c : Cluster K} (h : Reachable R c) : c.Balanced := by
  induction h with
  | start hfresh hhonest => exact hfresh.balanced hhonest
  | request t _ ih => exact ih.handle R t
  | peerStore hp sh r _ ih => exact ih.withPeer hp ⟨rfl, rfl, fun hm => AnyKey.Owing.store hm sh r⟩
  | peerFree hp b _ ih => exact ih.withPeer hp ⟨rfl, rfl, fun hm => AnyKey.Owing.free hm b⟩

end Cluster

/-! ## §3 Accepted stores -/

section Results

variable {cfg : Settings (KeyObject K)} {m : BlockManager cfg} {sh : Shuffles cfg.stripeCount}

omit [DecidableEq K] in
/-- Room for the block is enough. -/
theorem makesRoom_of_room {size : Nat} (h : m.reservedBytes + size ≤ cfg.maxMemoryBytes) :
    MakesRoom m sh size := by
  have hdeficit : m.deficit size = 0 := by
    rw [BlockManager.deficit]
    omega
  refine ⟨by omega, fun v hv => ?_⟩
  rw [hdeficit] at hv
  cases hlist : m.evicted sh size <;> simp [hlist, untilRoom] at hv

omit [DecidableEq K] in
theorem not_isFull {size : Nat} (h : MakesRoom m sh size) : ¬ IsFull m sh size :=
  fun hfull => absurd h.1 (Nat.not_le.mpr hfull.1)

/-- What `store` comes to, for a block that is not too large. -/
inductive StoreResult (m : BlockManager cfg) (sh : Shuffles cfg.stripeCount)
    (r : StoreReq (KeyObject K)) : Except StoreFailure BlockId → Prop where
  | stored (hroom : MakesRoom m sh r.size) (hkey : hashError r.key = none) (b : BlockId) :
      StoreResult m sh r (.ok b)
  | refused (hfull : IsFull m sh r.size) (size : Nat) (used : Int) (max freed : Nat) :
      StoreResult m sh r (.error (.refused (.outOfMemory size used max freed)))
  | raised (hraised : hashError r.key ≠ none ∨ ¬ MakesRoom m sh r.size ∧ ¬ IsFull m sh r.size)
      (text : String) : StoreResult m sh r (.error (.unhashable text))

theorem acquire_result (m : BlockManager cfg) (sh : Shuffles cfg.stripeCount) (size : Nat) :
    (acquire m sh size).2 = .ok () ∨
    (∃ used freed, (acquire m sh size).2
      = .error (.refused (.outOfMemory size used cfg.maxMemoryBytes freed))) ∨
    ∃ text, (acquire m sh size).2 = .error (.unhashable text) := by
  unfold acquire
  split
  · exact Or.inl rfl
  · split
    · exact Or.inr (Or.inr ⟨_, rfl⟩)
    · split
      · exact Or.inl rfl
      · exact Or.inr (Or.inl ⟨_, _, rfl⟩)

theorem store_result (hm : Owing m) {r : StoreReq (KeyObject K)}
    (hsize : r.size ≤ Config.maxBlockSize) : StoreResult m sh r (AnyKey.store m sh r).2 := by
  obtain ⟨owed, hbooks⟩ := hm
  obtain ⟨hroom, hfull⟩ := acquire_iff hbooks sh r.size
  have hcases := acquire_result m sh r.size
  unfold AnyKey.store
  rw [if_neg (Nat.not_lt.mpr hsize)]
  generalize acquire m sh r.size = out at hroom hfull hcases
  obtain ⟨m₁, res⟩ := out
  rcases hcases with rfl | ⟨used, freed, rfl⟩ | ⟨text, rfl⟩
  · dsimp only
    cases hkey : hashError r.key with
    | none => exact .stored (hroom.mp rfl) hkey _
    | some text => exact .raised (Or.inl (by simp [hkey])) text
  · exact .refused (hfull.mp ⟨_, _, rfl⟩) _ _ _ _
  · refine .raised (Or.inr ⟨fun h => ?_, fun h => ?_⟩) text
    · cases hroom.mpr h
    · obtain ⟨_, _, heq⟩ := hfull.mpr h
      cases heq

end Results

omit [DecidableEq K] in
theorem hashError_keyArgument (I : Interpreter K) (key : Value) :
    hashError (keyObject (keyArgument I key)) = none ↔ ∃ k, keyArgument I key = .ok k := by
  cases h : keyArgument I key with
  | ok k => simp [(hashError_keyObject k).1]
  | error text => simp [keyObject, hashError]

/-- `store_remote` succeeds when the peer has room and the key a hash. -/
theorem Peer.storeRemote_ok_iff (I : Interpreter K) {p : Peer K} (hp : Owing p.manager)
    (chunking : Chunking) (sh : (stripes : Nat) → Shuffles stripes) {data : Bytes}
    (d : Durability) (key : Value) (hsize : data.length ≤ Config.maxBlockSize) :
    (∃ b, (p.storeRemote I chunking sh data d key).2 = .ok b) ↔
      (∃ k, keyArgument I key = .ok k) ∧ MakesRoom p.manager (sh p.cfg.stripeCount) data.length := by
  have hfits : ¬ (decide (chunking.chunkThreshold < data.length) = true ∧
      Config.maxBlockSize < data.length) := fun h => absurd h.2 (Nat.not_lt.mpr hsize)
  simp only [Peer.storeRemote, if_neg hfits, ← hashError_keyArgument]
  have hresult : StoreResult p.manager (sh p.cfg.stripeCount) (storeArguments I data d key) _ :=
    store_result hp hsize
  generalize (AnyKey.store p.manager (sh p.cfg.stripeCount) _).2 = res at hresult
  cases hresult with
  | stored hroom hkey b => exact iff_of_true ⟨b, rfl⟩ ⟨hkey, hroom⟩
  | refused hfull =>
    exact iff_of_false (by simp [storeAnswer]) (fun h => not_isFull h.2 hfull)
  | raised hraised text =>
    refine iff_of_false ?_ (fun h => ?_)
    · simp only [storeAnswer]
      split <;> simp
    · rcases hraised with hkey | hno
      · exact hkey h.1
      · exact hno.1 h.2

namespace Cluster

/-- The writer of the connection to `peer` has not ended, and writes every
message of the transfer. -/
def Reaches (R : Runtime K) (c : Cluster K) (t : Turn) (peer : String) (data : Bytes)
    (d : Durability) (key : Value) : Prop :=
  (c.connected peer).isSome = true ∧
    ∀ m ∈ storeMessages c.chunking (t.reqId peer) t.stream data d key, R.sends m = true

/-- The store overflows to the peer that is asked. -/
theorem overflow_accepted_iff (R : Runtime K) {c : Cluster K} {best : String} {q : Peer K}
    {data : Bytes} (hbest : c.bestPeerForStore data.length = some best)
    (hq : c.peers.get best = some q) (howing : Owing q.manager)
    (hsize : data.length ≤ Config.maxBlockSize) (t : Turn) (localError : String) (d : Durability)
    (key : Value) :
    (c.overflow R t localError data d key).2.place.isSome = true ↔
      c.Reaches R t best data d key ∧ (∃ k, keyArgument R.toInterpreter key = .ok k) ∧
        MakesRoom q.manager (t.there q.cfg.stripeCount) data.length := by
  have hanswer : (c.overflow R t localError data d key).2.place.isSome = true ↔
      ∃ b, (c.storeRemote R t best data d key).2 = .ok b := by
    simp only [overflow, hbest]
    generalize c.storeRemote R t best data d key = out
    obtain ⟨c', res⟩ := out
    cases res with
    | ok b => exact iff_of_true rfl ⟨b, rfl⟩
    | error e =>
      refine iff_of_false ?_ (by simp)
      dsimp only
      split <;> simp [Stored.place]
  rw [hanswer, ← q.storeRemote_ok_iff R.toInterpreter howing c.chunking t.there d key hsize]
  unfold Reaches storeRemote callPeer
  cases hp : c.connected best with
  | none => simp
  | some p =>
    cases hq.symm.trans (connected_eq_some.mp hp).1
    dsimp only
    split
    · rename_i hsends
      exact ⟨fun h => ⟨⟨rfl, List.all_eq_true.mp hsends⟩, h⟩, fun h => h.2⟩
    · rename_i hsends
      exact iff_of_false (by simp) (fun h => hsends (List.all_eq_true.mpr h.1.2))

/-- A block within the maximum, when some peer has room for it: the node
tries itself and then one peer, of the largest quota. The store is
accepted exactly when its key has a hash and there is room here, or the
node is full, that peer can be reached and there is room on it. -/
theorem overflow_complete (R : Runtime K) {c : Cluster K} (hreach : c.Reachable R) (t : Turn)
    (hop : t.request.op = .store) {data : Bytes} {d : Durability}
    (hpayload : requestPayload R t.request.body = .ok (some data))
    (hd : durabilityOf ((Value.get t.request.body "durability").getD (durabilityValue .pinned))
      = some d)
    (hallow : allowRemote R t.request.body = true) (hsize : data.length ≤ Config.maxBlockSize)
    {peer : String} {p : Peer K} (hp : c.peers.get peer = some p)
    (hroom : p.manager.residentBytes + data.length ≤ p.cfg.maxMemoryBytes) :
    ∃ best q, c.bestPeerForStore data.length = some best ∧ c.peers.get best = some q ∧
      (∀ other o, c.peers.get other = some o → o.cfg.maxMemoryBytes ≤ q.cfg.maxMemoryBytes) ∧
      (accepted (c.handle R t).2 = true ↔
        (∃ k, keyArgument R.toInterpreter ((Value.get t.request.body "key").getD .nil) = .ok k) ∧
        (MakesRoom c.manager (t.here c.cfg.stripeCount) data.length ∨
          IsFull c.manager (t.here c.cfg.stripeCount) data.length ∧
            c.Reaches R t best data d ((Value.get t.request.body "key").getD .nil) ∧
            MakesRoom q.manager (t.there q.cfg.stripeCount) data.length)) := by
  have hbalanced := hreach.balanced
  have hfits : data.length ≤ p.cfg.maxMemoryBytes := Nat.le_of_add_left_le hroom
  obtain ⟨best, q, hbest, hq, hlargest⟩ := bestPeerForStore_spec hbalanced.honest hp hfits
  refine ⟨best, q, hbest, hq, hlargest, ?_⟩
  have haccepted : accepted (c.handle R t).2 = (c.store R t).2.place.isSome := by
    simp only [handle, dispatch, hop, accepted_response]
  rw [haccepted]
  simp only [store, attempt, hpayload, hd]
  have hresult : StoreResult c.manager (t.here c.cfg.stripeCount)
      (storeArguments R.toInterpreter data d ((Value.get t.request.body "key").getD .nil)) _ :=
    store_result hbalanced.here hsize
  rw [← hashError_keyArgument]
  generalize AnyKey.store c.manager (t.here c.cfg.stripeCount) _ = stored at hresult ⊢
  obtain ⟨m, res⟩ := stored
  cases hresult with
  | stored hroom hkey b => exact iff_of_true rfl ⟨hkey, Or.inl hroom⟩
  | refused hfull =>
    dsimp only
    rw [if_pos hallow, overflow_accepted_iff R (c := { c with manager := m }) hbest hq
      (hbalanced.there best q hq) hsize, hashError_keyArgument]
    constructor
    · rintro ⟨hreaches, hkey, hroom⟩
      exact ⟨hkey, Or.inr ⟨hfull, hreaches, hroom⟩⟩
    · rintro ⟨hkey, hroom | ⟨-, hreaches, hroom⟩⟩
      · exact absurd hfull (not_isFull hroom)
      · exact ⟨hreaches, hkey, hroom⟩
  | raised hraised text =>
    refine iff_of_false (by simp [Stored.place]) ?_
    rintro ⟨hkey, hroom⟩
    rcases hraised with h | ⟨hno, hfull⟩
    · exact h hkey
    · rcases hroom with hroom | hroom
      · exact hno hroom
      · exact hfull hroom.1

end Cluster

/-- Another peer's identity. -/
def otherName : String := String.ofList (List.replicate 64 'c')

/-- A node with room for one byte, and peers with room for three and two. -/
def unevenPool : Cluster (Option String ⊕ Int) :=
  { cfg := ⟨1, 2, Nat.two_pos, fun _ => 0⟩
    manager := .init _
    chunking := .default
    peers := (Dict.empty.set peerName
      ⟨3, ⟨3, 2, Nat.two_pos, fun _ => 0⟩, .init _, true⟩).set otherName
      ⟨2, ⟨2, 2, Nat.two_pos, fun _ => 0⟩, .init _, true⟩ }

theorem unevenPool_reachable : unevenPool.Reachable plainRuntime := by
  have hpeer : ∀ peer p, unevenPool.peers.get peer = some p →
      (p.manager = .init p.cfg ∧ p.alive = true) ∧ p.remoteQuota = p.cfg.maxMemoryBytes := by
    intro peer p hp
    simp only [unevenPool, Dict.get_set] at hp
    split at hp
    · cases hp
      exact ⟨⟨rfl, rfl⟩, rfl⟩
    · split at hp
      · cases hp
        exact ⟨⟨rfl, rfl⟩, rfl⟩
      · cases hp
  exact .start ⟨rfl, fun peer p hp => (hpeer peer p hp).1, by decide +kernel⟩
    (fun peer p hp => (hpeer peer p hp).2)

/-- A store of these bytes without a key. -/
def storeOf (data : Bytes) : Turn := Cluster.ask .store [("data", .bin data)]

/-- The pool after pinned stores of one byte and of three. -/
def filledPool : Cluster (Option String ⊕ Int) :=
  ((unevenPool.handle plainRuntime (storeOf [1])).1.handle plainRuntime (storeOf [2, 2, 2])).1

theorem filledPool_reachable : filledPool.Reachable plainRuntime :=
  .request _ (.request _ unevenPool_reachable)

theorem overflow_complete_unevenPool :
    accepted (unevenPool.handle plainRuntime (storeOf [1, 1])).2 = true := by
  obtain ⟨best, q, hbest, hq, _, hiff⟩ := Cluster.overflow_complete plainRuntime
    unevenPool_reachable (storeOf [1, 1]) rfl rfl rfl rfl (by decide)
    (show unevenPool.peers.get otherName = some _ from rfl) (by decide +kernel)
  cases hbest
  cases hq
  have hfull : IsFull unevenPool.manager (Shuffles.identity 2) 2 :=
    ⟨by decide +kernel, by decide +kernel⟩
  exact hiff.mpr ⟨⟨none, rfl⟩,
    Or.inr ⟨hfull, ⟨rfl, by decide +kernel⟩, makesRoom_of_room (by decide)⟩⟩

/-- A key that MessagePack has no integer for: the writer ends, and with it
every later overflow. -/
example : accepted (unevenPool.handle plainRuntime
    (Cluster.ask .store [("data", .bin [1, 1]), ("key", .int (2 ^ 70))])).2 = false ∧
    accepted ((unevenPool.handle plainRuntime
      (Cluster.ask .remoteFree [("peer", .str peerName), ("block_id", .int (2 ^ 70))])).1.handle
      plainRuntime (storeOf [1, 1])).2 = false := by
  decide +kernel

/-- The peer of the largest quota is full, so a byte is refused that the
other peer has room for. -/
theorem room_not_found :
    ∃ p, filledPool.Reachable plainRuntime ∧ filledPool.peers.get otherName = some p ∧
      p.manager.residentBytes + 1 ≤ p.cfg.maxMemoryBytes ∧
      accepted (filledPool.handle plainRuntime (storeOf [3])).2 = false := by
  have hother : (filledPool.peers.get otherName).any
      (fun p => p.manager.residentBytes + 1 ≤ p.cfg.maxMemoryBytes) = true := by decide +kernel
  obtain ⟨p, hp, hroom⟩ := (Option.any_eq_true _ _).mp hother
  exact ⟨p, filledPool_reachable, hp, of_decide_eq_true hroom, by decide +kernel⟩

end Memnode.Rpc
