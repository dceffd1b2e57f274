/-
Memnode.Rpc.FailedStore — what a refused store leaves behind.

Two ways lead from a decoded body to `BlockManager.store`: the RPC
operation `store`, here with `allow_remote` false, and a peer's
StoreBlock of a single frame. Both turn whatever `store` raises into a
refusal, an answer with `ok` False or a Nack. Bodies hold any values, so
the BlockManager is the one of `Blocks.AnyKey`, and its state any state
in which the counter is above every block and no quota is negative
(`Reached.sane`: the calls lead to no others).

`failed_store` says that a refused store adds no block and no reserved
byte exactly when it was not refused for the hash of its own key after
the quota was granted.

  §1 the RPC operation, as a part of `Cluster.store` (`store_local`);
  §2 the single frame;
  §3 what is left behind.
-/
import Memnode.Replication.Hub
import Memnode.Rpc.ReadYourWrites

namespace Memnode.Rpc

open Lib Blocks Replication

variable {K : Type} [DecidableEq K] {cfg : Settings (KeyObject K)}

/-! ## §1 The RPC operation -/

/-- `op == "store"` with `allow_remote` false. -/
def localStore (R : Runtime K) (m : BlockManager cfg) (sh : Shuffles cfg.stripeCount)
    (body : Body) : BlockManager cfg × Stored :=
  match attempt R m sh body with
  | (m', .ended s) => (m', s)
  | (m', .full e _ _ _) => (m', .refused e.message)

theorem store_local (R : Runtime K) (c : Cluster K) {t : Turn}
    (hlocal : allowRemote R t.request.body = false) :
    c.store R t
      = ({ c with manager := (localStore R c.manager (t.here c.cfg.stripeCount) t.request.body).1 },
          (localStore R c.manager (t.here c.cfg.stripeCount) t.request.body).2) := by
  unfold Cluster.store localStore
  cases attempt R c.manager (t.here c.cfg.stripeCount) t.request.body with
  | mk m' out =>
    cases out with
    | ended s => rfl
    | full e data d key => simp [hlocal]

/-- The answer has `ok` False. -/
def Stored.Fails (s : Stored) : Prop :=
  (Cluster.answerOf s.response).lookup "ok" = some (.bool false)

/-- The arguments `store` is called with, if the request gets that far. -/
def requestArguments (R : Runtime K) (body : Body) : Option (StoreReq (KeyObject K)) :=
  match requestPayload R body with
  | .ok (some data) =>
      (durabilityOf ((Value.get body "durability").getD (durabilityValue .pinned))).map (fun d =>
        storeArguments R.toInterpreter data d ((Value.get body "key").getD .nil))
  | _ => none

/-- A request is refused at once or answered by what `store` came to. -/
theorem localStore_cases (R : Runtime K) (m : BlockManager cfg) (sh : Shuffles cfg.stripeCount)
    (body : Body) :
    (requestArguments R body = none ∧ (localStore R m sh body).1 = m) ∨
    ∃ r, requestArguments R body = some r ∧
      (localStore R m sh body).1 = (AnyKey.store m sh r).1 ∧
      ((localStore R m sh body).2.Fails → ∃ e, (AnyKey.store m sh r).2 = .error e) := by
  unfold requestArguments localStore attempt
  cases requestPayload R body with
  | error text => exact Or.inl ⟨rfl, rfl⟩
  | ok payload =>
    cases payload with
    | none => exact Or.inl ⟨rfl, rfl⟩
    | some data =>
      dsimp only
      cases durabilityOf ((Value.get body "durability").getD (durabilityValue .pinned)) with
      | none => exact Or.inl ⟨rfl, rfl⟩
      | some d =>
        refine Or.inr ⟨_, rfl, ?_⟩
        dsimp only
        generalize AnyKey.store m sh _ = done
        obtain ⟨m', res⟩ := done
        cases res with
        | ok b => exact ⟨rfl, fun hfails => by cases Option.some.inj hfails⟩
        | error e =>
          refine ⟨?_, fun _ => ⟨e, rfl⟩⟩
          cases e with
          | unhashable text => rfl
          | refused e => cases e <;> rfl

/-! ## §2 The single frame -/

/-- A handler after its BlockManager call, if it has one to make. -/
def settle (ch : Chunking) (stream : Nat) (m : BlockManager cfg) (sh : Shuffles cfg.stripeCount)
    (h : Handler K) : BlockManager cfg × Handler K :=
  match h.serve ch stream m sh with
  | some r => (r.manager, r.next)
  | none => (m, h)

/-- The handler is about to send a Nack. -/
def Nacks (h : Handler K) : Prop := ∃ reqId m rest, h = .send reqId m rest ∧ m.2.type = .nack

/-- The arguments `store` is called with, if the frame gets that far. -/
def frameArguments (I : Interpreter K) (msg : Message) : Option (StoreReq (KeyObject K)) :=
  match msg.body with
  | .map body =>
      (extractPayload body "data").bind (fun data =>
        (durabilityOf ((Value.get body "durability").getD (durabilityValue .cache))).map (fun d =>
          ⟨data, d, keyObject (keyArgument I ((Value.get body "key").getD .nil))⟩))
  | _ => none

/-- A StoreBlock without chunks is not for us, is refused, or goes to
`store`. -/
theorem handled_frame (I : Interpreter K) (now : Rat) (c : Coordinator K) (peer : String)
    {msg : Message} (htype : msg.type = .storeBlock) (hplain : isChunked msg = false) :
    (handleMessage I now c peer msg).next = .idle ∨
    (frameArguments I msg = none ∧ ∃ reqId m,
      (handleMessage I now c peer msg).next = .send reqId m []) ∨
    ∃ reqId data d key, (handleMessage I now c peer msg).next = .store reqId false data d key ∧
      frameArguments I msg = some ⟨data, d, keyObject key⟩ := by
  cases hbody : msg.body with
  | map body =>
    cases hkey : I.key (reqIdOf msg) with
    | none =>
      left
      simp only [handleMessage, hbody, htype, reqId_eq hbody, hkey]
      rfl
    | some k =>
      rw [handleMessage_other I now peer hbody (by simp [htype]) hkey]
      cases pendingFuture c (reqIdOf msg) k with
      | some f =>
        left
        simp [handleReply, htype]
      | none =>
        right
        simp only [handleRequest, htype, isChunked_eq hbody, hplain, Bool.false_eq_true, if_false,
          serveStoreFrame, frameArguments, hbody]
        cases extractPayload body "data" with
        | none => exact Or.inl ⟨rfl, _, _, rfl⟩
        | some data =>
          dsimp only [Option.bind_some]
          cases durabilityOf ((Value.get body "durability").getD (durabilityValue .cache)) with
          | none =>
            refine Or.inl ⟨rfl, ?_⟩
            dsimp only
            cases I.repr ((Value.get body "durability").getD (durabilityValue .cache)) <;>
              exact ⟨_, _, rfl⟩
          | some d => exact Or.inr ⟨_, data, d, _, rfl, rfl⟩
  | _ =>
    left
    simp only [handleMessage, hbody]
    rfl

omit [DecidableEq K] in
/-- A store that is answered with a Nack has raised. -/
theorem error_of_nacks {reqId : Value} {transfer : Bool} {res : Except StoreFailure BlockId}
    (h : Nacks (afterStore reqId transfer res : Handler K)) : ∃ e, res = .error e := by
  cases res with
  | error e => exact ⟨e, rfl⟩
  | ok b =>
    obtain ⟨reqId', m, rest, heq, htype⟩ := h
    cases heq
    cases htype

/-! ## §3 What is left behind -/

/-- No block that was not resident, and no more reserved bytes. -/
structure LeavesNothing (m m' : BlockManager cfg) : Prop where
  blocks : ∀ b, m.block b = none → m'.block b = none
  reserved : m'.reservedBytes ≤ m.reservedBytes

omit [DecidableEq K] in
theorem LeavesNothing.refl (m : BlockManager cfg) : LeavesNothing m m :=
  ⟨fun _ h => h, Int.le_refl _⟩

/-- A store that raised leaves nothing behind, unless it raised with its
block in the stripe. -/
theorem store_leavesNothing_iff {m : BlockManager cfg} (hm : Sane m)
    {sh : Shuffles cfg.stripeCount} {r : StoreReq (KeyObject K)} {e : StoreFailure}
    (he : (AnyKey.store m sh r).2 = .error e) :
    LeavesNothing m (AnyKey.store m sh r).1 ↔ ¬ AnyKey.Strands m sh r := by
  constructor
  · intro hleaves hstrands
    have hblock := (AnyKey.store_strands hstrands).2
    rw [hleaves.blocks m.idCounter (hm.unused _ (Int.le_refl _))] at hblock
    cases hblock
  · intro hkey
    have hshrunk := AnyKey.store_failed he hkey
    refine ⟨?_, (hshrunk.reserved hm.reserved).2⟩
    intro b hb
    rcases hshrunk.block b with hsame | hgone
    · rw [hsame, hb]
    · exact hgone

/-- The states of a store after any calls. -/
inductive Reached : BlockManager cfg → Prop where
  | init : Reached (.init cfg)
  | store {m : BlockManager cfg} (sh : Shuffles cfg.stripeCount) (r : StoreReq (KeyObject K)) :
      Reached m → Reached (AnyKey.store m sh r).1
  | free {m : BlockManager cfg} (b : BlockId) : Reached m → Reached (AnyKey.free m b).1
  | freeByKey {m : BlockManager cfg} (k : K) : Reached m → Reached (m.freeByKey (.inl k)).1

theorem Reached.sane {m : BlockManager cfg} (h : Reached m) : Sane m := by
  induction h with
  | init => exact sane_init cfg
  | store sh r _ ih => exact AnyKey.Sane.store ih sh r
  | free b _ ih => exact AnyKey.Sane.free ih b
  | @freeByKey m k _ ih =>
    refine ih.shrunk ?_
    unfold BlockManager.freeByKey
    split
    · exact Shrunk.refl m
    · exact Shrunk.freeWith m true _

/-- A refused store leaves nothing behind exactly when its own key was
not what raised after the quota was granted. -/
theorem failed_store (R : Runtime K) {m : BlockManager cfg} (hm : Sane m)
    (sh : Shuffles cfg.stripeCount) :
    (∀ body, (localStore R m sh body).2.Fails →
      (LeavesNothing m (localStore R m sh body).1 ↔
        ∀ r, requestArguments R body = some r → ¬ AnyKey.Strands m sh r)) ∧
    ∀ now c peer msg ch stream, msg.type = .storeBlock → isChunked msg = false →
      Nacks (settle ch stream m sh (handleMessage R.toInterpreter now c peer msg).next).2 →
      (LeavesNothing m (settle ch stream m sh (handleMessage R.toInterpreter now c peer msg).next).1 ↔
        ∀ r, frameArguments R.toInterpreter msg = some r → ¬ AnyKey.Strands m sh r) := by
  constructor
  · intro body hfails
    rcases localStore_cases R m sh body with ⟨hnone, hsame⟩ | ⟨r, hr, hstore, herror⟩
    · rw [hsame, hnone]
      exact iff_of_true (.refl m) (by simp)
    · obtain ⟨e, he⟩ := herror hfails
      rw [hstore, hr, store_leavesNothing_iff hm he]
      simp
  · intro now c peer msg ch stream htype hplain hnacks
    rcases handled_frame R.toInterpreter now c peer htype hplain with
      hidle | ⟨hnone, reqId, x, hsend⟩ | ⟨reqId, data, d, key, hstore, hr⟩
    · rw [hidle] at hnacks
      obtain ⟨_, _, _, heq, _⟩ := hnacks
      cases heq
    · rw [hsend, hnone]
      exact iff_of_true (.refl m) (by simp)
    · rw [hstore] at hnacks ⊢
      obtain ⟨e, he⟩ := error_of_nacks hnacks
      have hmanager : (settle ch stream m sh (.store reqId false data d key)).1
          = (AnyKey.store m sh ⟨data, d, keyObject key⟩).1 := rfl
      rw [hmanager, hr, store_leavesNothing_iff hm he]
      simp

/-- A node with room for one byte. -/
def oneByte : Settings (KeyObject (Option String ⊕ Int)) := ⟨1, 2, Nat.two_pos, fun _ => 0⟩

/-- A store of two bytes without a key. -/
def twoBytes : Body := [(.str "data", .bin [1, 2])]

/-- The same in a StoreBlock. -/
def twoByteFrame : Message :=
  .ofFields .storeBlock [("req_id", .str "t"), ("data", .bin [1, 2])]

theorem failed_store_twoBytes :
    (localStore plainRuntime (.init oneByte) (.identity 2) twoBytes).2.Fails ∧
      LeavesNothing (.init oneByte)
        (localStore plainRuntime (.init oneByte) (.identity 2) twoBytes).1 ∧
      Nacks (settle ⟨2, Nat.two_pos, 2⟩ 1 (.init oneByte) (.identity 2)
        (handleMessage plainRuntime.toInterpreter 0 .init "p" twoByteFrame).next).2 ∧
      LeavesNothing (.init oneByte) (settle ⟨2, Nat.two_pos, 2⟩ 1 (.init oneByte) (.identity 2)
        (handleMessage plainRuntime.toInterpreter 0 .init "p" twoByteFrame).next).1 := by
  have hfails : (localStore plainRuntime (.init oneByte) (.identity 2) twoBytes).2.Fails := rfl
  have hnacks : Nacks (settle ⟨2, Nat.two_pos, 2⟩ 1 (.init oneByte) (.identity 2)
      (handleMessage plainRuntime.toInterpreter 0 .init "p" twoByteFrame).next).2 :=
    ⟨_, _, _, rfl, rfl⟩
  have hnothing := failed_store plainRuntime (sane_init oneByte) (.identity 2)
  refine ⟨hfails, (hnothing.1 twoBytes hfails).mpr ?_, hnacks,
    (hnothing.2 0 .init "p" twoByteFrame ⟨2, Nat.two_pos, 2⟩ 1 rfl rfl hnacks).mpr ?_⟩
  all_goals
    intro r hr hstrands
    cases hr
    exact hstrands.2.2 rfl

/-- A store of one byte under a list. -/
def underList : Body := [(.str "data", .bin [7]), (.str "key", .array [])]

/-- The same in a StoreBlock. -/
def listFrame : Message :=
  .ofFields .storeBlock [("req_id", .str "t"), ("data", .bin [7]), ("key", .array [])]

/-- Both are refused, and the block and its quota stay. -/
theorem refused_store_stays :
    ((BlockManager.init oneByte).block 1 = none ∧ (BlockManager.init oneByte).reservedBytes = 0) ∧
    (∃ m', (localStore plainRuntime (.init oneByte) (.identity 2) underList).1 = m' ∧
      (localStore plainRuntime (.init oneByte) (.identity 2) underList).2.Fails ∧
      (m'.block 1).isSome = true ∧ m'.reservedBytes = 1) ∧
    ∃ m' next, settle ⟨2, Nat.two_pos, 2⟩ 1 (.init oneByte) (.identity 2)
        (handleMessage plainKeys 0 .init "p" listFrame).next = (m', next) ∧
      Nacks next ∧ (m'.block 1).isSome = true ∧ m'.reservedBytes = 1 := by
  exact ⟨⟨rfl, rfl⟩, ⟨_, rfl, rfl, rfl, rfl⟩, _, _, rfl, ⟨_, _, _, rfl, rfl⟩, rfl, rfl⟩

end Memnode.Rpc
