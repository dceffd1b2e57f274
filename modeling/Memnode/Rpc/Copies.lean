/-
Memnode.Rpc.Copies — what is read under a key, node by node.

A key can be bound on the node and on every peer at once. `copy` is what
can be read under a key in one place, and a load by key is the first copy
along `places`, as long as the peers can be asked. The facts here say
what one request can do to the copies: a store puts its bytes under its
key in the one place it chose, and everything else it or another request
does can only make copies disappear (`Kept`), on the way through eviction,
rebinding or a free, or because the writer of a connection ends.

Keys are any values, so blocks may be stored under keys without a hash.
All that is needed of a key index is that it names no block of the future
(`Indexed`).
-/
import Memnode.Rpc.Dispatch

namespace Memnode.Rpc

open Lib Blocks Replication

variable {K : Type}

/-- A copy that is as it was, or gone. -/
def Kept (old new : Option Bytes) : Prop := new = old ∨ new = none

theorem Kept.eq_some {old new : Option Bytes} (h : Kept old new) {data : Bytes}
    (hnew : new = some data) : old = some data := by
  rcases h with h | h
  · rw [← h, hnew]
  · rw [hnew] at h
    cases h

theorem Kept.eq_none {old new : Option Bytes} (h : Kept old new) (hold : old = none) :
    new = none := by
  rcases h with h | h
  · rw [h, hold]
  · exact h

theorem Kept.trans {a b c : Option Bytes} (h : Kept a b) (h' : Kept b c) : Kept a c := by
  rcases h' with rfl | rfl
  · exact h
  · exact Or.inr rfl

variable [DecidableEq K]

/-- What is read under the keys after `data` was written under `key`, or
after nothing was. -/
def Wrote (old new : K → Option Bytes) (key : Option K) (data : Bytes) : Prop :=
  ∀ k, if key = some k then new k = some data else Kept (old k) (new k)

theorem wrote_none {old new : K → Option Bytes} {data : Bytes} :
    Wrote old new none data ↔ ∀ k, Kept (old k) (new k) := by
  simp [Wrote]

theorem Wrote.after_kept {old mid new : K → Option Bytes} {key : Option K} {data : Bytes}
    (h : ∀ k, Kept (old k) (mid k)) (h' : Wrote mid new key data) : Wrote old new key data := by
  intro k
  have hwrote := h' k
  split at hwrote
  · rename_i hk
    rw [if_pos hk]
    exact hwrote
  · rename_i hk
    rw [if_neg hk]
    exact (h k).trans hwrote

/-! ## One BlockManager -/

section Manager

variable {cfg : Settings (KeyObject K)} {m m' : BlockManager cfg}

/-- What `load_by_key` returns for the keys that have a hash. -/
def held (m : BlockManager cfg) (k : K) : Option Bytes := m.loadByKey (.inl k)

theorem held_eq (m : BlockManager cfg) (k : K) :
    held m k = (m.bound (.inl k)).bind (fun b => (m.block b).map Entry.data) := by
  unfold held BlockManager.loadByKey
  cases m.bound (.inl k) <;> rfl

/-- The index names only blocks that were drawn. -/
def Indexed (m : BlockManager cfg) : Prop := ∀ k b, m.bound k = some b → b < m.idCounter

theorem indexed_init (cfg : Settings (KeyObject K)) : Indexed (.init cfg) := by
  intro k b h
  cases h

theorem Indexed.shrunk (h : Indexed m) (hs : Shrunk m m') : Indexed m' := by
  intro k b hb
  rw [hs.idCounter]
  rcases hs.bound k with heq | heq
  · exact h k b (heq.symm.trans hb)
  · rw [heq] at hb
    cases hb

theorem held_shrunk (hs : Shrunk m m') (k : K) : Kept (held m k) (held m' k) := by
  rw [held_eq, held_eq]
  rcases hs.bound (.inl k) with heq | heq
  · rw [heq]
    cases m.bound (.inl k) with
    | none => exact Or.inl rfl
    | some b =>
      rcases hs.block b with hb | hb
      · exact Or.inl (by rw [Option.bind_some, Option.bind_some, hb])
      · exact Or.inr (by rw [Option.bind_some, hb, Option.map_none])
  · exact Or.inr (by rw [heq, Option.bind_none])

/-- A block under the next id is under no key. -/
theorem held_insert (h : Indexed m) (e : Entry (KeyObject K)) (k : K) :
    held (m.nextId.insertBlock m.idCounter e) k = held m k := by
  have hbound : (m.nextId.insertBlock m.idCounter e).bound (.inl k) = m.bound (.inl k) := rfl
  rw [held_eq, held_eq, hbound]
  cases hb : m.bound (.inl k) with
  | none => rfl
  | some b =>
    rw [Option.bind_some, Option.bind_some, block_insert, if_neg (ne_of_lt (h _ b hb))]

theorem Indexed.insert (h : Indexed m) (e : Entry (KeyObject K)) :
    Indexed (m.nextId.insertBlock m.idCounter e) := fun k b hb =>
  Int.lt_trans (h k b hb) (Int.lt_succ m.idCounter)

theorem bound_bindKey (m : BlockManager cfg) (k k' : KeyObject K) (b : BlockId) :
    (m.bindKey k b).1.bound k' = if k' = k then some b else m.bound k' := by
  rw [BlockManager.bound, BlockManager.index_bindKey, Striped.get_set]
  rfl

theorem bound_freeWith (m : BlockManager cfg) (b : BlockId) :
    (m.freeWith false b).1.bound = m.bound := by
  unfold BlockManager.freeWith
  obtain ⟨_, heq⟩ | ⟨e, _, heq⟩ := m.popFrom_cases (cfg.slot b) b
  · rw [heq]
  · rw [heq]
    rfl

/-- The key of an argument, if it has a hash. -/
def hashedKey : Option (KeyObject K) → Option K
  | some (.inl k) => some k
  | _ => none

/-- A block that is bound to a key is read under it. -/
theorem bindKey_wrote (h : Indexed m) (k : K) (e : Entry (KeyObject K)) :
    let placed := ((m.nextId.insertBlock m.idCounter e).bindKey (.inl k) m.idCounter).1
    Indexed placed ∧ placed.block m.idCounter = some e ∧
      placed.bound (.inl k) = some m.idCounter ∧
      ∀ k', k' ≠ k → held placed k' = held m k' := by
  intro placed
  have hbound := bound_bindKey (m.nextId.insertBlock m.idCounter e) (.inl k)
  refine ⟨fun k' b hb => ?_, ?_, ?_, fun k' hk' => ?_⟩
  · rw [show placed.bound k' = _ from hbound k' m.idCounter] at hb
    split at hb
    · cases hb
      exact Int.lt_succ m.idCounter
    · exact h.insert e k' b hb
  · show (m.nextId.insertBlock m.idCounter e).block m.idCounter = some e
    rw [block_insert, if_pos rfl]
  · rw [show placed.bound (.inl k) = _ from hbound (.inl k) m.idCounter, if_pos rfl]
  · have hsame : placed.bound (.inl k') = (m.nextId.insertBlock m.idCounter e).bound (.inl k') := by
      rw [show placed.bound (.inl k') = _ from hbound (.inl k') m.idCounter,
        if_neg (fun heq => hk' (Sum.inl.inj heq))]
    rw [← held_insert h e k', held_eq, held_eq, hsame]
    rfl

/-- `store`, second part. -/
theorem place_wrote (h : Indexed m) {r : StoreReq (KeyObject K)} (hkey : hashError r.key = none) :
    Indexed (m.place r).1 ∧ Wrote (held m) (held (m.place r).1) (hashedKey r.key) r.data := by
  unfold BlockManager.place
  cases hk : r.key with
  | none => exact ⟨h.insert r.entry, wrote_none.mpr (fun k => Or.inl (held_insert h r.entry k))⟩
  | some key =>
    cases key with
    | inr text => simp [hk, hashError] at hkey
    | inl k =>
      obtain ⟨hindexed, hblock, hbound, hothers⟩ := bindKey_wrote h k r.entry
      generalize hm₂ : (m.nextId.insertBlock m.idCounter r.entry).bindKey (.inl k) m.idCounter = out
        at hindexed hblock hbound hothers
      obtain ⟨m₂, previous⟩ := out
      -- freeing the previous block only makes copies disappear
      have hwrote : ∀ m₃ : BlockManager cfg, Shrunk m₂ m₃ → m₃.block m.idCounter = some r.entry →
          m₃.bound (.inl k) = some m.idCounter →
          Indexed m₃ ∧ Wrote (held m) (held m₃) (some k) r.data := by
        intro m₃ hshrunk hblock₃ hbound₃
        refine ⟨hindexed.shrunk hshrunk, fun k' => ?_⟩
        by_cases heq : k = k'
        · subst heq
          rw [if_pos rfl, held_eq, hbound₃, Option.bind_some, hblock₃]
          rfl
        · rw [if_neg (fun h => heq (Option.some.inj h)), ← hothers k' (fun h => heq h.symm)]
          exact held_shrunk hshrunk k'
      simp only [hm₂]
      cases previous with
      | none => exact hwrote m₂ (.refl m₂) hblock hbound
      | some previous =>
        simp only
        split
        · rename_i hne
          refine hwrote _ (.freeWith m₂ false previous) ?_ ?_
          · rw [block_freeWith_of_ne m₂ false (Ne.symm hne)]
            exact hblock
          · rw [bound_freeWith]
            exact hbound
        · exact hwrote m₂ (.refl m₂) hblock hbound

theorem acquire_kept (h : Indexed m) (sh : Shuffles cfg.stripeCount) (size : Nat) :
    Indexed (AnyKey.acquire m sh size).1 ∧
      ∀ k, Kept (held m k) (held (AnyKey.acquire m sh size).1 k) := by
  obtain ⟨hfail, hok⟩ := AnyKey.acquire_shrunk m sh size
  by_cases hres : (AnyKey.acquire m sh size).2 = .ok ()
  · obtain ⟨m₀, hshrunk, heq⟩ := hok hres
    rw [heq]
    -- the reservation is not part of what is read
    have hindexed : Indexed m₀ := h.shrunk hshrunk
    have hkept : ∀ k, Kept (held m k) (held m₀ k) := held_shrunk hshrunk
    exact ⟨hindexed, hkept⟩
  · exact ⟨h.shrunk (hfail hres), held_shrunk (hfail hres)⟩

/-- The bytes of a store that returned are read under its key, and
nothing else is written. -/
theorem store_wrote (h : Indexed m) (sh : Shuffles cfg.stripeCount) (r : StoreReq (KeyObject K)) :
    Indexed (AnyKey.store m sh r).1 ∧
      Wrote (held m) (held (AnyKey.store m sh r).1)
        (match (AnyKey.store m sh r).2 with
          | .ok _ => hashedKey r.key
          | .error _ => none) r.data := by
  obtain ⟨hindexed, hkept⟩ := acquire_kept h sh r.size
  unfold AnyKey.store
  split
  · exact ⟨h, wrote_none.mpr (fun _ => Or.inl rfl)⟩
  · generalize AnyKey.acquire m sh r.size = out at hindexed hkept
    obtain ⟨m₁, res⟩ := out
    cases res with
    | error e => exact ⟨hindexed, wrote_none.mpr hkept⟩
    | ok u =>
      simp only
      split
      · -- the key raises, and the block stays under no key
        refine ⟨hindexed.insert r.entry, wrote_none.mpr (fun k => ?_)⟩
        rw [held_insert hindexed]
        exact hkept k
      · rename_i hkey
        obtain ⟨hplaced, hwrote⟩ := place_wrote hindexed hkey
        exact ⟨hplaced, hwrote.after_kept hkept⟩

theorem free_kept (h : Indexed m) (b : BlockId) :
    Indexed (AnyKey.free m b).1 ∧ ∀ k, Kept (held m k) (held (AnyKey.free m b).1 k) :=
  ⟨h.shrunk (AnyKey.free_shrunk m b), held_shrunk (AnyKey.free_shrunk m b)⟩

theorem block_free (m : BlockManager cfg) (b : BlockId) : (AnyKey.free m b).1.block b = none := by
  unfold AnyKey.free
  obtain ⟨hnone, heq⟩ | ⟨e, _, heq⟩ := m.popFrom_cases (cfg.slot b) b
  · rw [heq]
    exact hnone
  · have hgone : (m.popFrom (cfg.slot b) b).1.block b = none := by
      rw [heq]
      simp [BlockManager.block, BlockManager.blocks, Striped.get]
    generalize m.popFrom (cfg.slot b) b = popped at heq hgone
    obtain ⟨m₁, found⟩ := popped
    cases (Prod.mk.inj heq).2
    simp only
    split
    · exact hgone
    · exact ((Shrunk.dropKey? (m₁.release e.size) e.key b).block b).elim (·.trans hgone) id

/-- Freeing the block a key is bound to leaves nothing under the key. -/
theorem free_bound {k : K} {b : BlockId} (hb : m.bound (.inl k) = some b) :
    held (AnyKey.free m b).1 k = none := by
  rw [held_eq]
  rcases (AnyKey.free_shrunk m b).bound (.inl k) with heq | heq
  · rw [heq, hb, Option.bind_some, block_free, Option.map_none]
  · rw [heq, Option.bind_none]

end Manager

/-- The key a store binds. -/
def boundKey (I : Interpreter K) (key : Value) : Option K :=
  match keyArgument I key with
  | .ok k => k
  | .error _ => none

omit [DecidableEq K] in
theorem hashedKey_keyObject (I : Interpreter K) (key : Value) :
    hashedKey (keyObject (keyArgument I key)) = boundKey I key := by
  unfold boundKey
  cases keyArgument I key with
  | error text => rfl
  | ok k => cases k <;> rfl

omit [DecidableEq K] in
theorem key_of_boundKey {I : Interpreter K} {key : Value} {k : K} (h : boundKey I key = some k) :
    I.key key = some k := by
  cases hkey : I.key key <;> cases key <;> simp_all [boundKey, keyArgument]

/-! ## Places -/

/-- The node itself, or a peer. -/
abbrev Place := Option String

/-- Where a store put its block. -/
def Stored.place : Stored → Option Place
  | .here _ => some none
  | .there peer _ => some (some peer)
  | _ => none

/-- Where a remote call wrote, if what it returned says so. -/
def placeAt {α : Type} (pubkey : String) (writes : α → Bool) :
    Except RemoteError α → Option Place
  | .ok a => if writes a then some (some pubkey) else none
  | .error _ => none

namespace Cluster

/-- In the order in which a load asks them. -/
def places (c : Cluster K) : List Place := none :: c.peers.keys.map some

/-- What can be read in one place under a key. -/
def copy (c : Cluster K) : Place → K → Option Bytes
  | none, k => held c.manager k
  | some pubkey, k => (c.connected pubkey).bind (fun p => held p.manager k)

/-- Every index of the cluster names blocks that were drawn. -/
structure Sound (c : Cluster K) : Prop where
  here : Indexed c.manager
  there : ∀ pubkey p, c.peers.get pubkey = some p → Indexed p.manager

omit [DecidableEq K] in
theorem connected_eq_some {c : Cluster K} {pubkey : String} {p : Peer K} :
    c.connected pubkey = some p ↔ c.peers.get pubkey = some p ∧ p.alive = true := by
  simp only [connected, Option.filter_eq_some_iff]

theorem copy_withPeer (c : Cluster K) (pubkey : String) (p : Peer K) (q : Place) (k : K) :
    (c.withPeer pubkey p).copy q k
      = if q = some pubkey then (if p.alive then held p.manager k else none) else c.copy q k := by
  cases q with
  | none => rfl
  | some pubkey' =>
    simp only [copy, connected, withPeer, Dict.get_set, Option.some.injEq]
    split
    · cases halive : p.alive <;> simp [Option.filter, halive]
    · rfl

omit [DecidableEq K] in
theorem places_withPeer {c : Cluster K} {pubkey : String} {p : Peer K}
    (h : c.peers.get pubkey = some p) (p' : Peer K) :
    (c.withPeer pubkey p').places = c.places := by
  simp only [places, withPeer, Dict.keys_set_of_some h]

theorem Sound.manager {c : Cluster K} (h : c.Sound) {m : BlockManager c.cfg} (hm : Indexed m) :
    ({ c with manager := m } : Cluster K).Sound := ⟨hm, h.there⟩

theorem Sound.withPeer {c : Cluster K} (h : c.Sound) (pubkey : String) {p : Peer K}
    (hp : Indexed p.manager) : (c.withPeer pubkey p).Sound := by
  refine ⟨h.here, fun pubkey' p' hget => ?_⟩
  simp only [Cluster.withPeer, Dict.get_set] at hget
  split at hget
  · cases hget
    exact hp
  · exact h.there pubkey' p' hget

/-- A request took `c` to `c'` and, if it did so anywhere, wrote `data`
under `key` at `place`. -/
structure Changed (c c' : Cluster K) (place : Option Place) (key : Option K) (data : Bytes) :
    Prop where
  sound : c'.Sound
  places : c'.places = c.places
  wrote : ∀ q, Wrote (c.copy q) (c'.copy q) (if place = some q then key else none) data

theorem Changed.refl {c : Cluster K} (h : c.Sound) (key : Option K) (data : Bytes) :
    Changed c c none key data :=
  ⟨h, rfl, fun _ => wrote_none.mpr (fun _ => Or.inl rfl)⟩

theorem Changed.kept {c c' : Cluster K} {key : Option K} {data : Bytes}
    (h : Changed c c' none key data) (q : Place) (k : K) : Kept (c.copy q k) (c'.copy q k) :=
  wrote_none.mp (h.wrote q) k

/-- First nothing is written, then something. -/
theorem Changed.trans {c c₁ c' : Cluster K} {place : Option Place} {key key' : Option K}
    {data data' : Bytes} (h : Changed c c₁ none key' data') (h' : Changed c₁ c' place key data) :
    Changed c c' place key data :=
  ⟨h'.sound, h'.places.trans h.places, fun q => (h'.wrote q).after_kept (h.kept q)⟩

theorem changed_manager {c : Cluster K} (h : c.Sound) {m : BlockManager c.cfg} {key : Option K}
    {data : Bytes} {place : Option Place} (hplace : place = none ∨ place = some none)
    (hm : Indexed m)
    (hwrote : Wrote (held c.manager) (held m) (if place = some none then key else none) data) :
    Changed c { c with manager := m } place key data := by
  refine ⟨h.manager hm, rfl, fun q => ?_⟩
  cases q with
  | none => exact hwrote
  | some pubkey =>
    rw [if_neg (by rcases hplace with rfl | rfl <;> simp)]
    exact wrote_none.mpr (fun _ => Or.inl rfl)

theorem changed_withPeer {c : Cluster K} (h : c.Sound) {pubkey : String} {p p' : Peer K}
    (hp : c.connected pubkey = some p) {key : Option K} {data : Bytes} {place : Option Place}
    (hplace : place = none ∨ place = some (some pubkey)) (hc : Indexed p'.manager)
    (hwrote : Wrote (held p.manager) (fun k => if p'.alive then held p'.manager k else none)
      (if place = some (some pubkey) then key else none) data) :
    Changed c (c.withPeer pubkey p') place key data := by
  obtain ⟨hget, -⟩ := connected_eq_some.mp hp
  refine ⟨h.withPeer pubkey hc, places_withPeer hget p', fun q k => ?_⟩
  rw [copy_withPeer]
  by_cases hq : q = some pubkey
  · subst hq
    have hold : c.copy (some pubkey) k = held p.manager k := by simp [copy, hp]
    rw [if_pos rfl, hold]
    exact hwrote k
  · have hnot : place ≠ some q := by
      rcases hplace with rfl | rfl
      · simp
      · simpa using Ne.symm hq
    rw [if_neg hq, if_neg hnot]
    simp [Kept]

/-! ## Remote calls -/

section Requests

variable (R : Runtime K)

/-- A call of a peer writes what the peer's action does. A writer that
ends takes the copies behind it out of reach. -/
theorem callPeer_changed {α : Type} {c : Cluster K} (h : c.Sound) (pubkey : String)
    (messages : List Message) (lost : RemoteFailure) {act : Peer K → Peer K × Except RemoteError α}
    {writes : α → Bool} {key : Option K} {data : Bytes}
    (hact : ∀ p : Peer K, Indexed p.manager → Indexed (act p).1.manager ∧
      (act p).1.alive = p.alive ∧
      Wrote (held p.manager) (held (act p).1.manager)
        (if (placeAt pubkey writes (act p).2).isSome then key else none) data) :
    Changed c (c.callPeer R pubkey messages lost act).1
      (placeAt pubkey writes (c.callPeer R pubkey messages lost act).2) key data := by
  unfold callPeer
  cases hp : c.connected pubkey with
  | none => exact .refl h _ _
  | some p =>
    obtain ⟨hget, halive⟩ := connected_eq_some.mp hp
    obtain ⟨hindexed, hsame, hwrote⟩ := hact p (h.there pubkey p hget)
    simp only
    split
    · have hplace : placeAt pubkey writes (act p).2 = none ∨
          placeAt pubkey writes (act p).2 = some (some pubkey) := by
        unfold placeAt
        split
        · split
          · exact Or.inr rfl
          · exact Or.inl rfl
        · exact Or.inl rfl
      refine changed_withPeer h hp hplace hindexed ?_
      simp only [hsame, halive, if_true]
      rcases hplace with heq | heq
      · simpa [heq] using hwrote
      · simpa [heq] using hwrote
    · exact changed_withPeer h hp (Or.inl rfl) (h.there pubkey p hget)
        (wrote_none.mpr (fun _ => Or.inr rfl))

theorem storeRemote_wrote {p : Peer K} (h : Indexed p.manager) (chunking : Chunking)
    (sh : (stripes : Nat) → Shuffles stripes) (pubkey : String) (data : Bytes) (d : Durability)
    (key : Value) :
    let out := p.storeRemote R.toInterpreter chunking sh data d key
    Indexed out.1.manager ∧ out.1.alive = p.alive ∧
      Wrote (held p.manager) (held out.1.manager)
        (if (placeAt pubkey (fun _ => true) out.2).isSome then boundKey R.toInterpreter key
          else none) data := by
  intro out
  obtain ⟨hindexed, hwrote⟩ := store_wrote h (sh p.cfg.stripeCount)
    (storeArguments R.toInterpreter data d key)
  rw [show hashedKey (storeArguments R.toInterpreter data d key).key = boundKey R.toInterpreter key
    from hashedKey_keyObject R.toInterpreter key] at hwrote
  by_cases hbig : decide (chunking.chunkThreshold < data.length) = true ∧
      Config.maxBlockSize < data.length
  · -- the header was refused
    have hout : out = (p, .error (.outOfMemory (.str (refusal data.length)))) := if_pos hbig
    rw [hout]
    exact ⟨h, rfl, wrote_none.mpr (fun _ => Or.inl rfl)⟩
  · have hout : out = _ := if_neg hbig
    rw [hout]
    refine ⟨hindexed, rfl, ?_⟩
    simp only
    generalize AnyKey.store p.manager (sh p.cfg.stripeCount) _ = done at hwrote
    obtain ⟨m', res⟩ := done
    cases res with
    | ok b => exact hwrote
    | error e =>
      cases e with
      | refused e => exact hwrote
      | unhashable text =>
        cases decide (chunking.chunkThreshold < data.length) <;> exact hwrote

theorem storeRemote_changed {c : Cluster K} (h : c.Sound) (t : Turn) (pubkey : String)
    (data : Bytes) (d : Durability) (key : Value) :
    Changed c (c.storeRemote R t pubkey data d key).1
      (placeAt pubkey (fun _ => true) (c.storeRemote R t pubkey data d key).2)
      (boundKey R.toInterpreter key) data :=
  callPeer_changed R h pubkey _ _ (fun _ hp => storeRemote_wrote R hp c.chunking t.there pubkey data d key)

/-- A call that writes nothing. -/
theorem callPeer_kept {α : Type} {c : Cluster K} (h : c.Sound) (pubkey : String)
    (messages : List Message) (lost : RemoteFailure) {act : Peer K → Peer K × Except RemoteError α}
    (hact : ∀ p : Peer K, Indexed p.manager → Indexed (act p).1.manager ∧
      (act p).1.alive = p.alive ∧ ∀ k, Kept (held p.manager k) (held (act p).1.manager k)) :
    Changed c (c.callPeer R pubkey messages lost act).1 none none [] := by
  have hnone : ∀ res : Except RemoteError α, placeAt pubkey (fun _ => false) res = none := by
    intro res
    cases res <;> rfl
  rw [← hnone (c.callPeer R pubkey messages lost act).2]
  refine callPeer_changed R h pubkey messages lost (fun p hp => ?_)
  obtain ⟨hindexed, hsame, hkept⟩ := hact p hp
  rw [hnone]
  exact ⟨hindexed, hsame, wrote_none.mpr hkept⟩

theorem loadRemote_changed {c : Cluster K} (h : c.Sound) (t : Turn) (pubkey : String)
    (block key : Value) : Changed c (c.loadRemote R t pubkey block key).1 none none [] :=
  callPeer_kept R h pubkey _ _ (fun _ hp => ⟨hp, rfl, fun _ => Or.inl rfl⟩)

theorem freeRemote_changed {c : Cluster K} (h : c.Sound) (t : Turn) (pubkey : String)
    (block : Value) : Changed c (c.freeRemote R t pubkey block).1 none none [] := by
  refine callPeer_kept R h pubkey _ _ (fun p hp => ?_)
  unfold Peer.freeRemote
  cases block.asInt with
  | none => exact ⟨hp, rfl, fun _ => Or.inl rfl⟩
  | some b => exact ⟨(free_kept hp b).1, rfl, (free_kept hp b).2⟩

/-! ## Stores and loads -/

theorem overflow_changed {c : Cluster K} (h : c.Sound) (t : Turn) (localError : String)
    (data : Bytes) (d : Durability) (key : Value) :
    Changed c (c.overflow R t localError data d key).1
      (c.overflow R t localError data d key).2.place (boundKey R.toInterpreter key) data := by
  unfold overflow
  cases c.bestPeerForStore data.length with
  | none => exact .refl h _ _
  | some peer =>
    have hchanged := storeRemote_changed R h t peer data d key
    simp only
    generalize c.storeRemote R t peer data d key = out at hchanged
    obtain ⟨c', res⟩ := out
    cases res with
    | ok b => exact hchanged
    | error e =>
      simp only
      split <;> exact hchanged

/-- The loop over the peers finds a copy, or nothing. -/
theorem askPeers_spec {t : Turn} {key : Value} {k : K} (hk : R.key key = some k)
    (pubkeys : List String) :
    ∀ {c : Cluster K}, c.Sound →
      Changed c (askPeers R t key pubkeys c).1 none none [] ∧
      ∀ data, (askPeers R t key pubkeys c).2 = some data → ∃ q, c.copy q k = some data := by
  induction pubkeys with
  | nil =>
    intro c h
    exact ⟨.refl h _ _, by simp [askPeers]⟩
  | cons pubkey rest ih =>
    intro c h
    have hchanged := loadRemote_changed R h t pubkey .nil key
    have hrest := ih hchanged.sound
    have hcopy : ∀ data, (c.loadRemote R t pubkey .nil key).2 = .ok (some data) →
        c.copy (some pubkey) k = some data := by
      intro data hdata
      simp only [loadRemote, callPeer] at hdata
      split at hdata
      · cases hdata
      · rename_i p hp
        split at hdata
        · simpa [copy, hp, Peer.loadRemote, hk, held] using hdata
        · cases hdata
    unfold askPeers
    split
    · rename_i c' data heq
      rw [heq] at hchanged hcopy
      refine ⟨hchanged, fun data' hdata' => ?_⟩
      cases hdata'
      exact ⟨some pubkey, hcopy data rfl⟩
    · rename_i c' res _ heq
      rw [heq] at hchanged hrest
      refine ⟨hchanged.trans hrest.1, fun data hdata => ?_⟩
      obtain ⟨q, hq⟩ := hrest.2 data hdata
      exact ⟨q, (hchanged.kept q k).eq_some hq⟩

theorem find_changed {c : Cluster K} (h : c.Sound) (t : Turn) :
    Changed c (c.find R t).1 none none [] := by
  unfold find
  split
  · exact .refl h _ _
  · split
    · exact .refl h _ _
    · split
      · exact .refl h _ _
      · rename_i k hk
        split
        · exact .refl h _ _
        · split
          · exact (askPeers_spec R hk _ h).1
          · exact .refl h _ _

/-- A load by key finds a copy, or nothing. -/
theorem find_key {c : Cluster K} (h : c.Sound) {t : Turn} {key : Value} {k : K}
    (hblock : Value.get t.request.body "block_id" = none)
    (hkey : Value.get t.request.body "key" = some key) (hk : R.key key = some k) :
    ∃ found, (c.find R t).2 = .ok found ∧
      ∀ data, found = some data → ∃ q, c.copy q k = some data := by
  simp only [find, hblock, hkey, hk]
  cases hheld : c.manager.loadByKey (.inl k) with
  | some data => exact ⟨some data, rfl, fun data' heq => ⟨none, by rw [← heq]; exact hheld⟩⟩
  | none =>
    simp only
    split
    · exact ⟨_, rfl, (askPeers_spec R hk _ h).2⟩
    · exact ⟨none, rfl, by simp⟩

/-- Over reliable links the loop finds the first copy. -/
theorem askPeers_reliable (hlinks : R.Reliable) {t : Turn} {key : Value} {k : K}
    (hk : R.key key = some k) (pubkeys : List String) :
    ∀ c : Cluster K, (askPeers R t key pubkeys c).2
      = pubkeys.findSome? (fun pubkey => c.copy (some pubkey) k) := by
  induction pubkeys with
  | nil => exact fun c => rfl
  | cons pubkey rest ih =>
    intro c
    rw [askPeers, List.findSome?_cons]
    cases hp : c.connected pubkey with
    | none =>
      have hload : c.loadRemote R t pubkey .nil key
          = (c, .error (.failed (.notConnected pubkey))) := by simp [loadRemote, callPeer, hp]
      have hcopy : c.copy (some pubkey) k = none := by simp [copy, hp]
      simp only [hload, hcopy, ih c]
    | some p =>
      obtain ⟨-, halive⟩ := connected_eq_some.mp hp
      have hload : c.loadRemote R t pubkey .nil key
          = (c.withPeer pubkey p, .ok (held p.manager k)) := by
        simp [loadRemote, callPeer, hp, hlinks _, Peer.loadRemote, hk, held]
      have hcopy : c.copy (some pubkey) k = held p.manager k := by simp [copy, hp]
      have hsame : ∀ q, (c.withPeer pubkey p).copy q k = c.copy q k := by
        intro q
        rw [copy_withPeer]
        split
        · rename_i hq
          rw [hq, hcopy]
        · rfl
      simp only [hload, hcopy]
      cases held p.manager k with
      | some data => rfl
      | none =>
        simp only [ih, hsame]

theorem find_key_reliable (hlinks : R.Reliable) (c : Cluster K) {t : Turn} {key : Value}
    {k : K} (hblock : Value.get t.request.body "block_id" = none)
    (hkey : Value.get t.request.body "key" = some key) (hk : R.key key = some k)
    (hallow : allowRemote R t.request.body = true) :
    (c.find R t).2 = .ok (c.places.findSome? (fun q => c.copy q k)) := by
  have hrest := askPeers_reliable R hlinks hk c.peers.keys c (t := t)
  have hhere : c.copy none k = c.manager.loadByKey (.inl k) := rfl
  simp only [find, hblock, hkey, hk, hallow, if_true, places, List.findSome?_cons, hhere,
    loadRemoteByKeyAnywhere, hrest, List.findSome?_map]
  cases c.manager.loadByKey (.inl k) <;> rfl

end Requests

end Cluster

end Memnode.Rpc
