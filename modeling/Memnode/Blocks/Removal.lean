/-
Memnode.Blocks.Removal — `_evict_to_free` takes no more than it needs.

`store` evicts after a failed `_reserve`, in any state that interleaved
calls lead to. What goes is what the victim lists say, in the order of
the pops, and before each pop there was still no room.

  §1 bindings and blocks under interleaving. A binding names a block
     whose entry carries the key, or a block that is gone; `KeysNamed`
     is kept by every step of every task, with the stores that are about
     to bind a key as its second part (`System.Reachable.named`).
  §2 the test of the victim loop. It counts the victims of earlier
     stripes twice, which only makes it stop earlier: while it goes on,
     room is short by more than they held (`takeVictims_short`).
  §3 the whole eviction.
-/
import Memnode.Blocks.AnyKey
import Memnode.Blocks.Eviction

set_option linter.unusedSectionVars false

namespace Memnode.Blocks

open Lib

variable {κ : Type} [DecidableEq κ] {cfg : Settings κ}

/-! ## §1 Bindings under interleaving -/

/-- The key that a store is about to bind, with its block. -/
def Task.binding : Task cfg → Multiset (BlockId × κ)
  | .bind b k => {(b, k)}
  | _ => 0

/-- Block `b` has been inserted, and if it is still there it carries `k`. -/
structure Carries (m : BlockManager cfg) (drawn : Multiset BlockId) (b : BlockId) (k : κ) : Prop where
  old : b < m.idCounter
  inserted : b ∉ drawn
  key : ∀ e, m.block b = some e → e.key = some k

/-- Bindings, and those about to be made, name blocks that carry their key. -/
structure KeysNamed (m : BlockManager cfg) (drawn : Multiset BlockId)
    (pending : Multiset (BlockId × κ)) : Prop where
  bound : ∀ k b, m.bound k = some b → Carries m drawn b k
  pending : ∀ x ∈ pending, Carries m drawn x.1 x.2

variable {m m' : BlockManager cfg} {drawn : Multiset BlockId} {pending : Multiset (BlockId × κ)}

theorem keysNamed_init : KeysNamed (BlockManager.init cfg) 0 0 where
  bound := by
    intro k b h
    simp [BlockManager.init, BlockManager.bound, BlockManager.index, Striped.get] at h
  pending := by simp

theorem Carries.shrunk {b : BlockId} {k : κ} (h : Carries m drawn b k) (hs : Shrunk m m') :
    Carries m' drawn b k where
  old := by rw [hs.idCounter]; exact h.old
  inserted := h.inserted
  key := by
    intro e he
    rcases hs.block b with hb | hb
    · exact h.key e (hb.symm.trans he)
    · rw [hb] at he
      cases he

/-- Losing blocks and bindings keeps the rest named. -/
theorem KeysNamed.shrunk (h : KeysNamed m drawn pending) (hs : Shrunk m m') :
    KeysNamed m' drawn pending where
  bound := by
    intro k b hk
    rcases hs.bound k with heq | heq
    · exact (h.bound k b (heq.symm.trans hk)).shrunk hs
    · rw [heq] at hk
      cases hk
  pending := fun x hx => (h.pending x hx).shrunk hs

/-- The next id is above every block that was ever inserted. -/
theorem KeysNamed.reserve {size : Nat} (h : KeysNamed m drawn pending)
    (hres : m.reserve size = (m', true)) :
    KeysNamed m'.nextId ({m'.idCounter} + drawn) pending := by
  rcases m.reserve_cases size with ⟨heq, _⟩ | ⟨m₁, heq, _, hm₁⟩
  · rw [heq] at hres
    simp at hres
  rw [heq] at hres
  simp only [Prod.mk.injEq, and_true] at hres
  subst hres hm₁
  have hnext : ∀ b k, Carries m drawn b k → Carries (m := ({ m with
      reservedBytes := m.reservedBytes + size } : BlockManager cfg).nextId)
      ({m.idCounter} + drawn) b k := by
    intro b k hc
    refine ⟨lt_trans hc.old (by simp [BlockManager.nextId]), ?_, hc.key⟩
    rw [Multiset.singleton_add, Multiset.mem_cons, not_or]
    exact ⟨ne_of_lt hc.old, hc.inserted⟩
  exact ⟨fun k b hk => hnext b k (h.bound k b hk), fun x hx => hnext x.1 x.2 (h.pending x hx)⟩

/-- A new block is not named yet; the store is about to bind its key. -/
theorem KeysNamed.insertBlock {b : BlockId} {e : Entry κ} (h : KeysNamed m ({b} + drawn) pending)
    (hb : b < m.idCounter) (hnd : b ∉ drawn) :
    KeysNamed (m.insertBlock b e) drawn pending ∧
      ∀ k, e.key = some k → Carries (m.insertBlock b e) drawn b k := by
  have hblock : ∀ b', (m.insertBlock b e).block b' = if b' = b then some e else m.block b' := by
    intro b'
    rw [BlockManager.block, BlockManager.blocks_insertBlock, Striped.get_set]
    rfl
  have hkeep : ∀ b' k, Carries m ({b} + drawn) b' k → Carries (m.insertBlock b e) drawn b' k := by
    intro b' k hc
    have hins := hc.inserted
    rw [Multiset.singleton_add, Multiset.mem_cons, not_or] at hins
    refine ⟨hc.old, hins.2, fun e' he' => ?_⟩
    rw [hblock, if_neg hins.1] at he'
    exact hc.key e' he'
  refine ⟨⟨fun k b' hk => hkeep b' k (h.bound k b' hk), fun x hx => hkeep x.1 x.2 (h.pending x hx)⟩,
    fun k hk => ⟨hb, hnd, fun e' he' => ?_⟩⟩
  rw [hblock, if_pos rfl] at he'
  cases he'
  exact hk

theorem KeysNamed.bindKey {b : BlockId} {k : κ} (h : KeysNamed m drawn ({(b, k)} + pending)) :
    KeysNamed (m.bindKey k b).1 drawn pending := by
  have hnew : Carries m drawn b k := h.pending (b, k) (by simp)
  have hsame : ∀ b' k', Carries m drawn b' k' → Carries (m.bindKey k b).1 drawn b' k' :=
    fun b' k' hc => ⟨hc.old, hc.inserted, hc.key⟩
  refine ⟨fun k' b' hk' => hsame b' k' ?_, fun x hx => hsame x.1 x.2 (h.pending x (by simp [hx]))⟩
  rw [BlockManager.bound, BlockManager.index_bindKey, Striped.get_set] at hk'
  split at hk'
  · rename_i heq
    cases hk'
    rw [heq]
    exact hnew
  · exact h.bound k' b' hk'

theorem bound_popFrom (m : BlockManager cfg) (i : Fin cfg.stripeCount) (b : BlockId) :
    (m.popFrom i b).1.bound = m.bound := by
  rcases m.popFrom_cases i b with ⟨_, heq⟩ | ⟨e, _, heq⟩
  · rw [heq]
  · rw [heq]
    rfl

namespace Task

@[simp] theorem drawn_nextStripe (r : StoreReq κ) (sh : Shuffles cfg.stripeCount)
    (todo : List (Fin cfg.stripeCount)) (freed : Nat) :
    (nextStripe r sh todo freed).drawn = 0 :=
  congrArg (fun w => w.2.2) (weight_nextStripe r sh todo freed)

@[simp] theorem drawn_nextVictim (m : BlockManager cfg) (r : StoreReq κ)
    (sh : Shuffles cfg.stripeCount) (vs : List (Victim κ)) (todo : List (Fin cfg.stripeCount))
    (freed : Nat) : (nextVictim m r sh vs todo freed).drawn = 0 :=
  congrArg (fun w => w.2.2) (weight_nextVictim m r sh vs todo freed)

@[simp] theorem binding_nextStripe (r : StoreReq κ) (sh : Shuffles cfg.stripeCount)
    (todo : List (Fin cfg.stripeCount)) (freed : Nat) :
    (nextStripe r sh todo freed).binding = 0 := by
  cases todo <;> rfl

@[simp] theorem binding_nextVictim (m : BlockManager cfg) (r : StoreReq κ)
    (sh : Shuffles cfg.stripeCount) (vs : List (Victim κ)) (todo : List (Fin cfg.stripeCount))
    (freed : Nat) : (nextVictim m r sh vs todo freed).binding = 0 := by
  cases vs with
  | nil =>
    simp only [nextVictim]
    split
    · rfl
    · exact binding_nextStripe r sh todo freed
  | cons v rest => rfl

theorem binding_start {t : Task cfg} (h : Start t) : t.binding = 0 := by
  cases h with
  | store r sh => unfold Task.store; split <;> rfl
  | load b => rfl
  | loadByKey k => rfl
  | free b => rfl
  | freeByKey k => rfl

end Task

theorem KeysNamed.dropKey (h : KeysNamed m drawn pending) (k : κ) (b : BlockId) :
    KeysNamed (m.dropKey k b) drawn pending :=
  h.shrunk (Shrunk.dropKey? m (some k) b)

theorem KeysNamed.release (h : KeysNamed m drawn pending) (size : Nat) :
    KeysNamed (m.release size) drawn pending :=
  h.shrunk (Shrunk.release m size)

/-- One step of one task, whatever the others are about to bind. -/
theorem keysNamed_step (m : BlockManager cfg) (t : Task cfg) (ids : Multiset BlockId)
    (pending : Multiset (BlockId × κ)) {owed : Nat} (hb : Books m owed (t.drawn + ids))
    (h : KeysNamed m (t.drawn + ids) (t.binding + pending)) :
    KeysNamed (Task.step m t).1 ((Task.step m t).2.drawn + ids)
      ((Task.step m t).2.binding + pending) := by
  cases t with
  | reserve r sh =>
    have h0 : KeysNamed m ids pending := by simpa [Task.drawn, Task.binding] using h
    rcases hres : m.reserve r.size with ⟨m', _ | _⟩
    · simpa [Task.step, hres, Task.reserve_refused hres] using h0
    · simpa [Task.step, hres, Task.drawn, Task.binding] using h0.reserve hres
  | evict r sh i todo freed =>
    have h0 : KeysNamed m ids pending := by simpa [Task.drawn, Task.binding] using h
    simp only [Task.step, Task.drawn_nextVictim, Task.binding_nextVictim, zero_add]
    exact h0.shrunk (Shrunk.takeVictims _ i _ m freed)
  | releaseVictim r sh v vs todo freed =>
    have h0 : KeysNamed m ids pending := by simpa [Task.drawn, Task.binding] using h
    cases hk : v.key with
    | none => simpa [Task.step, hk] using h0.release v.size
    | some k => simpa [Task.step, hk, Task.drawn, Task.binding] using h0.release v.size
  | dropVictimKey r sh k bid vs todo freed =>
    have h0 : KeysNamed m ids pending := by simpa [Task.drawn, Task.binding] using h
    simpa [Task.step] using h0.dropKey k bid
  | retry r freed =>
    have h0 : KeysNamed m ids pending := by simpa [Task.drawn, Task.binding] using h
    rcases hres : m.reserve r.size with ⟨m', _ | _⟩
    · simpa [Task.step, hres, Task.reserve_refused hres, Task.drawn, Task.binding] using h0
    · simpa [Task.step, hres, Task.drawn, Task.binding] using h0.reserve hres
  | insert b r =>
    have h0 : KeysNamed m ({b} + ids) pending := by simpa [Task.drawn, Task.binding] using h
    have hold : b < m.idCounter := (hb.drawn_fresh b (by simp [Task.drawn])).1
    have hnd : b ∉ ids := by
      have hnodup : ({b} + ids).Nodup := hb.drawn_nodup
      rw [Multiset.singleton_add, Multiset.nodup_cons] at hnodup
      exact hnodup.1
    obtain ⟨hrest, hnew⟩ := h0.insertBlock (e := r.entry) hold hnd
    cases hk : r.key with
    | none => simpa [Task.step, hk, Task.drawn, Task.binding] using hrest
    | some k =>
      simp only [Task.step, hk, Task.drawn, Task.binding, zero_add]
      refine ⟨hrest.bound, fun x hx => ?_⟩
      rw [Multiset.singleton_add, Multiset.mem_cons] at hx
      rcases hx with rfl | hx
      · exact hnew k hk
      · exact hrest.pending x hx
  | bind b k =>
    have h0 : KeysNamed m ids ({(b, k)} + pending) := by
      simpa [Task.drawn, Task.binding] using h
    have hbound := h0.bindKey
    rcases hbk : m.bindKey k b with ⟨m', _ | previous⟩
    · rw [hbk] at hbound
      simpa [Task.step, hbk, Task.drawn, Task.binding] using hbound
    · rw [hbk] at hbound
      simp only [Task.step, hbk]
      split <;> simpa [Task.drawn, Task.binding] using hbound
  | pop b drop caller =>
    have h0 : KeysNamed m ids pending := by simpa [Task.drawn, Task.binding] using h
    have hpopped : KeysNamed (m.popFrom (cfg.slot b) b).1 ids pending :=
      h0.shrunk (Shrunk.popFrom m _ b)
    rcases hpop : m.popFrom (cfg.slot b) b with ⟨m', _ | e⟩ <;> rw [hpop] at hpopped <;>
      simpa [Task.step, hpop, Task.drawn, Task.binding] using hpopped
  | release b size key drop caller =>
    have h0 : KeysNamed m ids pending := by simpa [Task.drawn, Task.binding] using h
    cases drop <;> cases key <;>
      simpa [Task.step, Task.drawn, Task.binding] using h0.release size
  | dropKey b k caller =>
    have h0 : KeysNamed m ids pending := by simpa [Task.drawn, Task.binding] using h
    simpa [Task.step, Task.drawn, Task.binding] using h0.dropKey k b
  | load b => simpa [Task.step, Task.drawn, Task.binding] using h
  | loadKey k =>
    simp only [Task.step]
    split <;> simpa [Task.drawn, Task.binding] using h
  | freeKey k =>
    simp only [Task.step]
    split <;> simpa [Task.drawn, Task.binding] using h
  | done o => simpa [Task.step, Task.drawn, Task.binding] using h

/-- In every reachable state a binding names a block that carries its key. -/
theorem System.Reachable.named {s : System cfg} (h : s.Reachable) : s.shared.abs.Named := by
  have hacc := Pool.Reachable.accounting h (fun t => (t.weight, t.binding))
    (fun m w => Task.Balanced m w.1 ∧ KeysNamed m w.1.2.2 w.2)
    ⟨by simpa [Task.Balanced] using Books.init, keysNamed_init⟩
    (fun t ht => Prod.ext (Task.weight_start ht) (Task.binding_start ht))
    (fun m t rest hJ => ⟨Task.balanced_step m t rest.1 hJ.1,
      keysNamed_step m t rest.1.2.2 rest.2 hJ.1 hJ.2⟩)
  intro k b e hk hb
  exact (hacc.2.bound k b hk).key e hb

/-! ## §2 The test of the victim loop -/

namespace BlockManager

/-- Past its first victim, the loop over one stripe goes on only while
room is short by more than everything freed so far. -/
theorem takeVictims_short (needed : Nat) (i : Fin cfg.stripeCount) (cands : List BlockId) :
    ∀ (m : BlockManager cfg) (freed : Nat) (earlier : List (Victim κ)) (v : Victim κ)
      (later : List (Victim κ)),
      (takeVictims needed i cands m freed).2.2 = earlier ++ v :: later → earlier ≠ [] →
      (cfg.maxMemoryBytes : Int)
        < m.reservedBytes - (freed + (earlier.map Victim.size).sum : Nat) + needed := by
  induction cands with
  | nil =>
    intro m freed earlier v later h _
    simp [takeVictims] at h
  | cons b rest ih =>
    intro m freed earlier v later h hne
    obtain ⟨first, more, rfl⟩ := List.exists_cons_of_ne_nil hne
    rcases heq : m.popFrom i b with ⟨m₁, _ | e⟩
    · simp only [takeVictims, heq] at h
      exact ih m freed (first :: more) v later h hne
    · have hres : m₁.reservedBytes = m.reservedBytes := by
        rw [← reservedBytes_popFrom m i b, heq]
      simp only [takeVictims, heq] at h
      split at h
      · simp at h
      · rename_i hshort
        rw [List.cons_append, List.cons.injEq] at h
        obtain ⟨rfl, hrest⟩ := h
        rw [hres] at hshort
        rcases List.eq_nil_or_concat more with rfl | ⟨_, _, _⟩
        · simp only [List.map_cons, List.map_nil, List.sum_cons, List.sum_nil, Nat.add_zero]
          omega
        · have hlater := ih m₁ (freed + e.size) more v later hrest (by simp_all)
          rw [hres] at hlater
          simp only [List.map_cons, List.sum_cons, ← Nat.add_assoc]
          exact hlater

/-- Freeing the victims gives back the bytes they held. -/
theorem reservedBytes_frees {owed : Nat} {drawn : Multiset BlockId} {m : BlockManager cfg}
    {victims : List (Victim κ)} (h : Books m owed drawn) (hnd : (victims.map Victim.bid).Nodup)
    (hall : ∀ v ∈ victims, ∃ e, m.block v.bid = some e ∧ e.durability = .cache ∧ v.size = e.size) :
    (m.frees (victims.map Victim.bid)).reservedBytes
      = m.reservedBytes - ((victims.map Victim.size).sum : Nat) := by
  have hused := congrArg Plain.used (abs_frees (victims.map Victim.bid) h).1
  rw [Plain.used_removeAll hnd, sum_sizeAt hall] at hused
  exact hused

/-- Before every pop of `_evict_to_free` there was still no room. -/
theorem victimsFrom_short {owed : Nat} {drawn : Multiset BlockId} (sh : Shuffles cfg.stripeCount)
    (needed : Nat) (order : List (Fin cfg.stripeCount)) :
    ∀ (m : BlockManager cfg) (freed : Nat), Books m owed drawn →
      (cfg.maxMemoryBytes : Int) < m.reservedBytes + needed →
      ∀ earlier v later, victimsFrom sh needed order m freed = earlier ++ v :: later →
        (cfg.maxMemoryBytes : Int)
          < m.reservedBytes - ((earlier.map Victim.size).sum : Nat) + needed := by
  induction order with
  | nil =>
    intro m freed _ _ earlier v later h
    simp [victimsFrom] at h
  | cons i rest ih =>
    intro m freed hbooks hfull earlier v later h
    obtain ⟨hrel, hnd, hall, -⟩ := evictStripe_victims hbooks.placed sh needed i freed
    have hstripe : ∀ earlier v later,
        (m.evictStripe sh needed i freed).2.2 = earlier ++ v :: later →
        (cfg.maxMemoryBytes : Int)
          < m.reservedBytes - ((earlier.map Victim.size).sum : Nat) + needed := by
      intro earlier v later hsplit
      by_cases hne : earlier = []
      · subst hne
        simpa using hfull
      · have hshort := takeVictims_short needed i _ m freed earlier v later hsplit hne
        push_cast at hshort ⊢
        omega
    simp only [victimsFrom] at h
    rw [hrel] at h
    generalize (m.evictStripe sh needed i freed).2.2 = vs at hnd hall hstripe h
    split at h
    · exact hstripe earlier v later h
    · rename_i hroom
      -- a later stripe was entered without room, after these victims were released
      have hnext : ∀ mid, victimsFrom sh needed rest (m.frees (vs.map Victim.bid))
            (m.evictStripe sh needed i freed).2.1 = mid ++ v :: later →
          (cfg.maxMemoryBytes : Int)
            < m.reservedBytes - (((vs ++ mid).map Victim.size).sum : Nat) + needed := by
        intro mid hmid
        have hfull' : (cfg.maxMemoryBytes : Int)
            < (m.frees (vs.map Victim.bid)).reservedBytes + needed := by
          simpa [hasRoom] using hroom
        have hlater := ih _ _ (abs_frees (vs.map Victim.bid) hbooks).2.1 hfull' mid v later hmid
        rw [reservedBytes_frees hbooks hnd hall] at hlater
        rw [List.map_append, List.sum_append]
        push_cast at hlater ⊢
        omega
      rcases List.append_eq_append_iff.mp h with ⟨mid, rfl, hmid⟩ | ⟨mid, hmid, hlater⟩
      · exact hnext mid hmid
      · cases mid with
        | nil =>
          rw [List.append_nil] at hmid
          have := hnext [] hlater.symm
          rwa [List.append_nil, hmid] at this
        | cons w mid =>
          rw [List.cons_append, List.cons.injEq] at hlater
          exact hstripe earlier v mid (by rw [hmid, hlater.1])

end BlockManager

/-! ## §3 The whole eviction -/

/-- What one run of `_evict_to_free` removed, and what it left alone. -/
structure Removal (m : BlockManager cfg) (needed : Nat) (removed : List (Victim κ))
    (m' : BlockManager cfg) (returned : Nat) : Prop where
  distinct : (removed.map Victim.bid).Nodup
  cache : ∀ v ∈ removed, ∃ e, m.block v.bid = some e ∧ e.durability = .cache ∧ v.size = e.size
  short : ∀ earlier v later, removed = earlier ++ v :: later →
    (cfg.maxMemoryBytes : Int) < m.reservedBytes - ((earlier.map Victim.size).sum : Nat) + needed
  block : ∀ b, m'.block b = if b ∈ removed.map Victim.bid then none else m.block b
  bound : ∀ k, m'.bound k
    = if ∃ b ∈ removed.map Victim.bid, m.bound k = some b then none else m.bound k
  idCounter : m'.idCounter = m.idCounter
  returned : returned = (removed.map Victim.size).sum
  released : m.reservedBytes - m'.reservedBytes = ((removed.map Victim.size).sum : Nat)

/-- In any state that interleaved calls lead to, after a refused
`_reserve` and for every random order: eviction removes distinct CACHE
blocks, each while room was still short, with their bindings, and
nothing else changes but the quota they held. -/
theorem eviction_removes_only_needed (cfg : Settings κ) (s : System cfg) (h : s.Reachable)
    (needed : Nat) (hfull : (s.shared.reserve needed).2 = false)
    (sh : Shuffles cfg.stripeCount) :
    Removal s.shared needed (BlockManager.victimsFrom sh needed sh.order s.shared 0)
      (s.shared.evictToFree sh needed).1 (s.shared.evictToFree sh needed).2 := by
  obtain ⟨hrun, hnd, hall, hfreed⟩ :=
    BlockManager.evictFrom_victims sh needed sh.order s.shared 0 h.books
  have hshort : (cfg.maxMemoryBytes : Int) < s.shared.reservedBytes + needed := by
    rcases s.shared.reserve_cases needed with ⟨_, hlt⟩ | ⟨m', heq, _⟩
    · exact hlt
    · rw [heq] at hfull
      cases hfull
  have hstops := BlockManager.victimsFrom_short sh needed sh.order s.shared 0 h.books hshort
  rw [← BlockManager.evictToFree] at hrun hfreed
  generalize BlockManager.victimsFrom sh needed sh.order s.shared 0 = removed at *
  have habs := (BlockManager.abs_frees (removed.map Victim.bid) h.books).1
  rw [← hrun] at habs
  have hres : ∀ b ∈ removed.map Victim.bid, ∃ e, s.shared.abs.block b = some e := by
    intro b hb
    obtain ⟨v, hv, rfl⟩ := List.mem_map.mp hb
    obtain ⟨e, he, _⟩ := hall v hv
    exact ⟨e, he⟩
  exact {
    distinct := hnd
    cache := hall
    short := hstops
    block := fun b => (congrFun (congrArg Plain.block habs) b).trans (Plain.block_removeAll _ _ b)
    bound := fun k => (congrFun (congrArg Plain.bound habs) k).trans
      (Plain.bound_removeAll h.named hnd hres k)
    idCounter := (congrArg Plain.next habs).trans (Plain.next_removeAll _ _)
    returned := by rw [hfreed, Nat.zero_add]
    released := by
      rw [hrun, BlockManager.reservedBytes_frees h.books hnd hall]
      omega }

/-- Two keyed CACHE blocks fill the store; two more bytes are needed, and
the first of the two, of one byte, is not enough. -/
theorem eviction_removes_only_needed_two :
    ∃ s : System twoStripes, s.Reachable ∧ (s.shared.reserve 2).2 = false ∧
      (BlockManager.victimsFrom (.identity 2) 2 (List.finRange 2) s.shared 0).map Victim.bid
        = [2, 1] ∧
      Removal s.shared 2 (BlockManager.victimsFrom (.identity 2) 2 (List.finRange 2) s.shared 0)
        (s.shared.evictToFree (.identity 2) 2).1 (s.shared.evictToFree (.identity 2) 2).2 := by
  have empty : System.Reachable (⟨.init twoStripes, []⟩ : System twoStripes) := .refl
  have first := empty.tail (.spawn _ _
    (Task.ofCall (.identity 2) (.store ⟨[1, 2], .cache, some 7⟩)) (Task.start_ofCall _ _))
  have stored := Pool.Reachable.alone (l := []) (r := []) first (Task.alone_exec _ _ _)
  have second := stored.tail (.spawn _ _
    (Task.ofCall (.identity 2) (.store ⟨[3], .cache, some 8⟩)) (Task.start_ofCall _ _))
  have full := Pool.Reachable.alone (l := [_]) (r := []) second (Task.alone_exec _ _ _)
  exact ⟨_, full, by decide +kernel, by decide +kernel,
    eviction_removes_only_needed _ _ full 2 (by decide +kernel) (.identity 2)⟩

end Memnode.Blocks
