/-
Memnode.Blocks.Tasks — the calls of `blocks.py` as interleaved tasks.

A `Task` is a coroutine at one of its suspension points: every
constructor names the lock the coroutine is about to take and carries
the locals it still needs. `Task.step` takes that lock, runs the
critical section, and runs on to the next suspension point, so one step
is everything between two awaits that can suspend. A schedule is any
run of `Lib.Pool` over these tasks.

The two ghost terms of the quota invariant are read off the suspension
point: `Task.unplaced` is what a store has reserved and not yet
inserted, `Task.unreleased` is what was popped out of a stripe and not
yet given back to the quota.
-/
import Memnode.Blocks.Manager
import Memnode.Lib.Pool

set_option linter.unusedSectionVars false

namespace Memnode.Blocks

open Lib

variable {κ : Type} [DecidableEq κ] {cfg : Settings κ}

/-- Who called `free`: the API, or a `store` that rebound a key and is
about to return the new block's id. -/
inductive FreeCaller where
  | api
  | rebind (stored : BlockId)

/-- What `free` hands back to its caller. -/
def FreeCaller.outcome : FreeCaller → Bool → Outcome
  | .api, ok => .freed ok
  | .rebind b, _ => .stored b

/-- A coroutine at a suspension point. -/
inductive Task (cfg : Settings κ) where
  /-- `store`, before the first `_reserve` -/
  | reserve (r : StoreReq κ) (sh : Shuffles cfg.stripeCount)
  /-- `_evict_to_free`, before the lock of stripe `i` -/
  | evict (r : StoreReq κ) (sh : Shuffles cfg.stripeCount) (i : Fin cfg.stripeCount)
      (todo : List (Fin cfg.stripeCount)) (freed : Nat)
  /-- `_evict_to_free`, before `_release` of victim `v` -/
  | releaseVictim (r : StoreReq κ) (sh : Shuffles cfg.stripeCount) (v : Victim κ)
      (vs : List (Victim κ)) (todo : List (Fin cfg.stripeCount)) (freed : Nat)
  /-- `_evict_to_free`, before the key lock of a victim's key -/
  | dropVictimKey (r : StoreReq κ) (sh : Shuffles cfg.stripeCount) (k : κ) (bid : BlockId)
      (vs : List (Victim κ)) (todo : List (Fin cfg.stripeCount)) (freed : Nat)
  /-- `store`, before the second `_reserve` -/
  | retry (r : StoreReq κ) (freed : Nat)
  /-- `store`, before the stripe lock, with its id drawn -/
  | insert (b : BlockId) (r : StoreReq κ)
  /-- `store`, before the key lock -/
  | bind (b : BlockId) (k : κ)
  /-- `free`, before the stripe lock -/
  | pop (b : BlockId) (drop : Bool) (caller : FreeCaller)
  /-- `free`, before `_release` -/
  | release (b : BlockId) (size : Nat) (key : Option κ) (drop : Bool) (caller : FreeCaller)
  /-- `free`, before the key lock -/
  | dropKey (b : BlockId) (k : κ) (caller : FreeCaller)
  /-- `load`, before the stripe lock -/
  | load (b : BlockId)
  /-- `load_by_key`, before the key lock -/
  | loadKey (k : κ)
  /-- `free_by_key`, before the key lock -/
  | freeKey (k : κ)
  | done (o : Outcome)

namespace Task

/-! ## Starting a call -/

/-- `store(...)`: the size check needs no lock. -/
def store (r : StoreReq κ) (sh : Shuffles cfg.stripeCount) : Task cfg :=
  if r.size > Config.maxBlockSize then .done (.failed (.blockTooLarge r.size))
  else .reserve r sh

/-- The tasks a caller can start. -/
inductive Start : Task cfg → Prop where
  | store (r : StoreReq κ) (sh : Shuffles cfg.stripeCount) : Start (Task.store r sh)
  | load (b : BlockId) : Start (.load b)
  | loadByKey (k : κ) : Start (.loadKey k)
  | free (b : BlockId) : Start (.pop b true .api)
  | freeByKey (k : κ) : Start (.freeKey k)

/-! ## One step -/

/-- The head of the stripe loop: the next stripe, or the second `_reserve`. -/
def nextStripe (r : StoreReq κ) (sh : Shuffles cfg.stripeCount)
    (todo : List (Fin cfg.stripeCount)) (freed : Nat) : Task cfg :=
  match todo with
  | [] => .retry r freed
  | i :: rest => .evict r sh i rest freed

/-- The head of the victim loop; past its end, the test that ends the
stripe loop. -/
def nextVictim (m : BlockManager cfg) (r : StoreReq κ) (sh : Shuffles cfg.stripeCount)
    (vs : List (Victim κ)) (todo : List (Fin cfg.stripeCount)) (freed : Nat) : Task cfg :=
  match vs with
  | v :: rest => .releaseVictim r sh v rest todo freed
  | [] => if m.hasRoom r.size then .retry r freed else nextStripe r sh todo freed

/-- Take the lock the task waits for, run the section, run on to the
next suspension point. -/
def step (m : BlockManager cfg) : Task cfg → BlockManager cfg × Task cfg
  | .reserve r sh =>
      match m.reserve r.size with
      | (m', true) => (m'.nextId, .insert m'.idCounter r)
      | (m', false) => (m', nextStripe r sh sh.order 0)
  | .evict r sh i todo freed =>
      let (m', freed', vs) := m.evictStripe sh r.size i freed
      (m', nextVictim m' r sh vs todo freed')
  | .releaseVictim r sh v vs todo freed =>
      let m' := m.release v.size
      match v.key with
      | none => (m', nextVictim m' r sh vs todo freed)
      | some k => (m', .dropVictimKey r sh k v.bid vs todo freed)
  | .dropVictimKey r sh k bid vs todo freed =>
      let m' := m.dropKey k bid
      (m', nextVictim m' r sh vs todo freed)
  | .retry r freed =>
      match m.reserve r.size with
      | (m', true) => (m'.nextId, .insert m'.idCounter r)
      | (m', false) =>
          (m', .done (.failed (.outOfMemory r.size m'.reservedBytes cfg.maxMemoryBytes freed)))
  | .insert b r =>
      let m' := m.insertBlock b r.entry
      match r.key with
      | none => (m', .done (.stored b))
      | some k => (m', .bind b k)
  | .bind b k =>
      match m.bindKey k b with
      | (m', none) => (m', .done (.stored b))
      | (m', some previous) =>
          (m', if previous ≠ b then .pop previous false (.rebind b) else .done (.stored b))
  | .pop b drop caller =>
      match m.popFrom (cfg.slot b) b with
      | (m', none) => (m', .done (caller.outcome false))
      | (m', some e) => (m', .release b e.size e.key drop caller)
  | .release b size key drop caller =>
      let m' := m.release size
      match drop, key with
      | true, some k => (m', .dropKey b k caller)
      | _, _ => (m', .done (caller.outcome true))
  | .dropKey b k caller => (m.dropKey k b, .done (caller.outcome true))
  | .load b => (m, .done (.loaded (m.load b)))
  | .loadKey k =>
      match m.bound k with
      | none => (m, .done (.loaded none))
      | some b => (m, .load b)
  | .freeKey k =>
      match m.bound k with
      | none => (m, .done (.freed false))
      | some b => (m, .pop b true .api)
  | .done o => (m, .done o)

/-! ## A call that runs alone -/

/-- The task a call starts as. -/
def ofCall (sh : Shuffles cfg.stripeCount) : Call κ → Task cfg
  | .store r => Task.store r sh
  | .load b => .load b
  | .loadByKey k => .loadKey k
  | .free b => .pop b true .api
  | .freeByKey k => .freeKey k

theorem start_ofCall (sh : Shuffles cfg.stripeCount) (c : Call κ) : Start (ofCall sh c) := by
  cases c <;> constructor

theorem alone_step (m : BlockManager cfg) (t : Task cfg) {y : BlockManager cfg × Task cfg}
    (h : step m t = y) : Pool.Alone step (m, t) y :=
  Relation.ReflTransGen.single h

/-- The victim loop, then the test that ends the stripe loop. -/
theorem alone_victims (m : BlockManager cfg) (r : StoreReq κ) (sh : Shuffles cfg.stripeCount)
    (vs : List (Victim κ)) (todo : List (Fin cfg.stripeCount)) (freed : Nat) :
    Pool.Alone step (m, nextVictim m r sh vs todo freed)
      (m.releaseVictims vs, nextVictim (m.releaseVictims vs) r sh [] todo freed) := by
  induction vs generalizing m with
  | nil => exact Relation.ReflTransGen.refl
  | cons v vs ih =>
    refine Relation.ReflTransGen.trans ?_ (ih ((m.release v.size).dropKey? v.key v.bid))
    cases hk : v.key with
    | none =>
      refine alone_step _ _ ?_
      show step m (.releaseVictim r sh v vs todo freed) = _
      simp only [step, hk, BlockManager.dropKey?]
    | some k =>
      refine (alone_step (y := (m.release v.size, .dropVictimKey r sh k v.bid vs todo freed)) _ _
        ?_).trans (alone_step _ _ ?_)
      · simp [step, nextVictim, hk]
      · simp [step, BlockManager.dropKey?]

/-- The stripe loop of `_evict_to_free`. -/
theorem alone_stripes (m : BlockManager cfg) (r : StoreReq κ) (sh : Shuffles cfg.stripeCount)
    (todo : List (Fin cfg.stripeCount)) (freed : Nat) :
    Pool.Alone step (m, nextStripe r sh todo freed)
      ((BlockManager.evictFrom sh r.size todo m freed).1,
        .retry r (BlockManager.evictFrom sh r.size todo m freed).2) := by
  induction todo generalizing m freed with
  | nil => exact Relation.ReflTransGen.refl
  | cons i rest ih =>
    rcases hev : m.evictStripe sh r.size i freed with ⟨m', freed', vs⟩
    have hsection : Pool.Alone step (m, nextStripe r sh (i :: rest) freed)
        (m', nextVictim m' r sh vs rest freed') := alone_step _ _ (by simp [step, nextStripe, hev])
    refine (hsection.trans (alone_victims m' r sh vs rest freed')).trans ?_
    by_cases hroom : (m'.releaseVictims vs).hasRoom r.size
    · simp only [BlockManager.evictFrom, hev, nextVictim, hroom, if_true]
      exact Relation.ReflTransGen.refl
    · simp only [BlockManager.evictFrom, hev, nextVictim, hroom]
      exact ih _ _

/-- `free`, for either caller. -/
theorem alone_free (m : BlockManager cfg) (b : BlockId) (drop : Bool) (caller : FreeCaller) :
    Pool.Alone step (m, .pop b drop caller)
      ((m.freeWith drop b).1, .done (caller.outcome (m.freeWith drop b).2)) := by
  cases hg : (m.stripes (cfg.slot b)).blocks.get b with
  | none => exact alone_step _ _ (by simp [step, BlockManager.freeWith, BlockManager.popFrom, hg])
  | some e =>
    obtain ⟨m₁, he⟩ : ∃ m₁, m.popFrom (cfg.slot b) b = (m₁, some e) := by
      simp [BlockManager.popFrom, hg]
    have hpop : Pool.Alone step (m, .pop b drop caller) (m₁, .release b e.size e.key drop caller) :=
      alone_step _ _ (by simp [step, he])
    refine hpop.trans ?_
    cases drop with
    | false => exact alone_step _ _ (by simp [step, BlockManager.freeWith, he])
    | true =>
      cases hk : e.key with
      | none =>
        exact alone_step _ _ (by simp [step, BlockManager.freeWith, he, hk, BlockManager.dropKey?])
      | some k =>
        refine (alone_step (y := (m₁.release e.size, .dropKey b k caller)) _ _ (by simp [step])).trans
          (alone_step _ _ ?_)
        simp [step, BlockManager.freeWith, he, hk, BlockManager.dropKey?]

/-- `store` once its bytes are reserved. -/
theorem alone_place (m : BlockManager cfg) (r : StoreReq κ) :
    Pool.Alone step (m.nextId, .insert m.idCounter r)
      ((m.place r).1, .done (.stored (m.place r).2)) := by
  cases hk : r.key with
  | none => exact alone_step _ _ (by simp [step, BlockManager.place, hk])
  | some k =>
    obtain ⟨m₂, prev, hbind⟩ :
        ∃ m₂ prev, (m.nextId.insertBlock m.idCounter r.entry).bindKey k m.idCounter = (m₂, prev) :=
      ⟨_, _, rfl⟩
    refine (alone_step (y := (m.nextId.insertBlock m.idCounter r.entry, .bind m.idCounter k)) _ _
      (by simp [step, hk])).trans ?_
    cases prev with
    | none => exact alone_step _ _ (by simp [step, BlockManager.place, hk, hbind])
    | some previous =>
      by_cases hne : previous = m.idCounter
      · exact alone_step _ _ (by simp [step, BlockManager.place, hk, hbind, hne])
      · refine (alone_step (y := (m₂, .pop previous false (.rebind m.idCounter))) _ _
          (by simp [step, hbind, hne])).trans ?_
        simpa [BlockManager.place, hk, hbind, hne, FreeCaller.outcome] using
          alone_free m₂ previous false (.rebind m.idCounter)

/-- A call that nobody interrupts does what `exec` says, so the calls of
`Blocks.Manager` are the sections of this module run one after another. -/
theorem alone_exec (m : BlockManager cfg) (sh : Shuffles cfg.stripeCount) (c : Call κ) :
    Pool.Alone step (m, ofCall sh c) ((m.exec sh c).1, .done (m.exec sh c).2) := by
  cases c with
  | store r =>
    by_cases hsize : r.size > Config.maxBlockSize
    · have : ofCall sh (.store r) = Task.done (.failed (.blockTooLarge r.size)) := by
        simp [ofCall, store, hsize]
      simp only [this, BlockManager.exec, BlockManager.store, hsize, if_true, Outcome.ofStore]
      exact Relation.ReflTransGen.refl
    · have : ofCall sh (.store r) = Task.reserve r sh := by simp [ofCall, store, hsize]
      rw [this]
      rcases hres : m.reserve r.size with ⟨m₁, ok⟩
      cases ok with
      | true =>
        refine (alone_step (y := (m₁.nextId, .insert m₁.idCounter r)) _ _
          (by simp [step, hres])).trans ?_
        simpa [BlockManager.exec, BlockManager.store, hsize, BlockManager.acquire, hres,
          Outcome.ofStore] using alone_place m₁ r
      | false =>
        refine (alone_step (y := (m₁, nextStripe r sh sh.order 0)) _ _
          (by simp [step, hres])).trans ((alone_stripes m₁ r sh sh.order 0).trans ?_)
        rcases hev : BlockManager.evictFrom sh r.size sh.order m₁ 0 with ⟨m₂, freed⟩
        rcases hres₂ : m₂.reserve r.size with ⟨m₃, ok⟩
        cases ok with
        | true =>
          refine (alone_step (y := (m₃.nextId, .insert m₃.idCounter r)) _ _
            (by simp [step, hres₂])).trans ?_
          simpa [BlockManager.exec, BlockManager.store, hsize, BlockManager.acquire, hres,
            BlockManager.evictToFree, hev, hres₂, Outcome.ofStore] using alone_place m₃ r
        | false =>
          refine alone_step _ _ ?_
          simp [step, BlockManager.exec, BlockManager.store, hsize, BlockManager.acquire, hres,
            BlockManager.evictToFree, hev, hres₂, Outcome.ofStore]
  | load b => exact alone_step _ _ rfl
  | loadByKey k =>
    cases hk : m.bound k with
    | none =>
      exact alone_step _ _ (by simp [ofCall, step, BlockManager.exec, BlockManager.loadByKey, hk])
    | some b =>
      refine (alone_step (y := (m, .load b)) _ _ (by simp [ofCall, step, hk])).trans
        (alone_step _ _ ?_)
      simp [step, BlockManager.exec, BlockManager.loadByKey, hk]
  | free b => exact alone_free m b true .api
  | freeByKey k =>
    cases hk : m.bound k with
    | none =>
      exact alone_step _ _ (by simp [ofCall, step, BlockManager.exec, BlockManager.freeByKey, hk])
    | some b =>
      refine (alone_step (y := (m, .pop b true .api)) _ _ (by simp [ofCall, step, hk])).trans ?_
      simpa [BlockManager.exec, BlockManager.freeByKey, hk, BlockManager.free,
        FreeCaller.outcome] using alone_free m b true .api

/-! ## What a suspended task still holds -/

/-- Bytes a store has reserved for a block it has not inserted yet. -/
def unplaced : Task cfg → Nat
  | .insert _ r => r.size
  | _ => 0

/-- Bytes of blocks already popped whose `_release` has not run yet. -/
def unreleased : Task cfg → Nat
  | .releaseVictim _ _ v vs _ _ => v.size + (vs.map Victim.size).sum
  | .dropVictimKey _ _ _ _ vs _ _ => (vs.map Victim.size).sum
  | .release _ size _ _ _ => size
  | _ => 0

/-- The size the task is about to pass to `_release`. -/
def releasing : Task cfg → Option Nat
  | .releaseVictim _ _ v _ _ _ => some v.size
  | .release _ size _ _ _ => some size
  | _ => none

/-- The id a store has drawn for a block it has not inserted yet. -/
def drawn : Task cfg → Multiset BlockId
  | .insert b _ => {b}
  | _ => 0

end Task

/-- A block manager with the calls in flight on it. -/
abbrev System (cfg : Settings κ) := Pool (BlockManager cfg) (Task cfg)

/-- Every state some interleaving of calls reaches. -/
def System.Reachable (s : System cfg) : Prop :=
  Pool.Reachable (BlockManager.init cfg) Task.Start Task.step s

end Memnode.Blocks
