/-
Memnode.Blocks.Simulation — a completed call of the striped store is a
call of the plain one.

`abs` forgets the stripes: a block is found through its stripe, a
binding through its key stripe, and the two counters are kept.
`exec_simulates` is the forward simulation. Its two halves are

* `free`: popping, releasing and dropping the key is one removal
  (`abs_free`), and eviction is nothing but a run of `free` over the
  victims it picked (`evictFrom_victims`). The second is not how the
  code is written: it pops all victims of a stripe first and releases
  them after the lock. `Popped.settle` says why that makes no
  difference.
* `place`: insert, rebind, then free the previous block without
  touching the index, is the plain `place`.
-/
import Memnode.Blocks.Plain
import Memnode.Blocks.Quota

set_option linter.unusedSectionVars false

namespace Memnode.Blocks

open Lib

variable {κ : Type} [DecidableEq κ] {cfg : Settings κ}

namespace BlockManager

/-- The plain store a manager stands for. -/
def abs (m : BlockManager cfg) : Plain κ where
  block := m.block
  bound := m.bound
  next := m.idCounter
  used := m.reservedBytes
  count := m.blockCount

/-! ## The key index, section by section -/

theorem index_bindKey (m : BlockManager cfg) (k : κ) (b : BlockId) :
    (m.bindKey k b).1.index = Striped.set cfg.keySlot m.index k b := by
  funext i
  by_cases h : i = cfg.keySlot k
  · subst h; simp [bindKey, index, Striped.set]
  · simp [bindKey, index, Striped.set, h]

theorem index_dropKey (m : BlockManager cfg) (k : κ) (b : BlockId) :
    (m.dropKey k b).index
      = if m.bound k = some b then Striped.erase cfg.keySlot m.index k else m.index := by
  by_cases hb : m.bound k = some b
  · have hg : (m.keyStripes (cfg.keySlot k)).index.get k = some b := hb
    rw [if_pos hb]
    funext i
    by_cases h : i = cfg.keySlot k
    · subst h; simp [dropKey, hg, index, Striped.erase]
    · simp [dropKey, hg, index, Striped.erase, h]
  · have hg : ¬ (m.keyStripes (cfg.keySlot k)).index.get k = some b := hb
    rw [if_neg hb]
    simp [dropKey, hg]

theorem bound_dropKey (m : BlockManager cfg) (k k' : κ) (b : BlockId) :
    (m.dropKey k b).bound k' = if k = k' ∧ m.bound k' = some b then none else m.bound k' := by
  rw [bound, index_dropKey]
  by_cases hk : k = k'
  · subst hk
    by_cases hb : m.bound k = some b
    · simp [hb, Striped.get_erase]
    · simp only [hb, if_false, and_false]; rfl
  · have hk' : ¬ k' = k := fun h => hk h.symm
    by_cases hb : m.bound k = some b
    · rw [if_pos hb, Striped.get_erase, if_neg hk', if_neg (fun h => hk h.1)]; rfl
    · rw [if_neg hb, if_neg (fun h => hk h.1)]; rfl

theorem bound_dropKey? (m : BlockManager cfg) (key : Option κ) (k' : κ) (b : BlockId) :
    (m.dropKey? key b).bound k'
      = if key = some k' ∧ m.bound k' = some b then none else m.bound k' := by
  cases key with
  | none => simp [dropKey?]
  | some k => simp [dropKey?, bound_dropKey]

@[simp] theorem stripes_dropKey? (m : BlockManager cfg) (key : Option κ) (b : BlockId) :
    (m.dropKey? key b).stripes = m.stripes := by
  cases key <;> simp [dropKey?]

@[simp] theorem reservedBytes_dropKey? (m : BlockManager cfg) (key : Option κ) (b : BlockId) :
    (m.dropKey? key b).reservedBytes = m.reservedBytes := by
  cases key <;> simp [dropKey?]

@[simp] theorem idCounter_dropKey? (m : BlockManager cfg) (key : Option κ) (b : BlockId) :
    (m.dropKey? key b).idCounter = m.idCounter := by
  cases key <;> simp [dropKey?]

theorem placed_dropKey? {m : BlockManager cfg} (h : Striped.Placed cfg.keySlot m.index)
    (key : Option κ) (b : BlockId) : Striped.Placed cfg.keySlot (m.dropKey? key b).index := by
  cases key with
  | none => exact h
  | some k =>
    simp only [dropKey?, index_dropKey]
    split
    · exact h.erase k
    · exact h

/-- Two managers with the same stripes hold the same blocks. -/
theorem blocks_congr {m m' : BlockManager cfg} (h : m'.stripes = m.stripes) :
    m'.blocks = m.blocks := by
  funext i
  simp [blocks, h]

theorem block_congr {m m' : BlockManager cfg} (h : m'.stripes = m.stripes) : m'.block = m.block := by
  funext b
  rw [block, block, blocks_congr h]

theorem totalOf_congr {m m' : BlockManager cfg} (h : m'.stripes = m.stripes) (f : Entry κ → Nat) :
    m'.totalOf f = m.totalOf f := by
  rw [totalOf, totalOf, blocks_congr h]

/-! ## `free` is one removal -/

/-- A `free` of a block that is not there does nothing. -/
theorem freeWith_none {m : BlockManager cfg} {b : BlockId} (hb : m.block b = none) (drop : Bool) :
    m.freeWith drop b = (m, false) := by
  have hg : (m.stripes (cfg.slot b)).blocks.get b = none := hb
  simp [freeWith, popFrom, hg]

/-- A `free` of a resident block: everything it does. -/
theorem freeWith_some {m : BlockManager cfg} {owed : Nat} {drawn : Multiset BlockId}
    (h : Books m owed drawn) {b : BlockId} {e : Entry κ} (hb : m.block b = some e) (drop : Bool) :
    ∃ m', m.freeWith drop b = (m', true) ∧ Books m' owed drawn ∧
      (∀ b', m'.block b' = if b' = b then none else m.block b') ∧
      (∀ k, m'.bound k
        = if drop = true ∧ e.key = some k ∧ m.bound k = some b then none else m.bound k) ∧
      m'.idCounter = m.idCounter ∧ m'.reservedBytes = m.reservedBytes - e.size ∧
      m'.blockCount = m.blockCount - 1 ∧
      (Striped.Placed cfg.keySlot m.index → Striped.Placed cfg.keySlot m'.index) := by
  rcases m.popFrom_cases (cfg.slot b) b with ⟨hg, _⟩ | ⟨e', hg, heq⟩
  · have hg' : (m.stripes (cfg.slot b)).blocks.get b = some e := hb
    rw [hg] at hg'
    cases hg'
  have he : e' = e := by
    have hg' : (m.stripes (cfg.slot b)).blocks.get b = some e := hb
    rw [hg] at hg'
    exact Option.some.inj hg'
  subst he
  obtain ⟨-, -, hbl, hks, hres, hctr⟩ := popFrom_some h.placed heq
  have hbooks := (h.popFrom heq).release
  have hreserved := h.reserved
  generalize hm₁ : ({ m with
      stripes := Function.update m.stripes (cfg.slot b)
        ⟨(m.stripes (cfg.slot b)).blocks.erase b,
          (m.stripes (cfg.slot b)).usedBytes - e'.size⟩ } : BlockManager cfg) = m₁
    at heq hbl hks hres hctr hbooks
  have hblock₁ : ∀ b', m₁.block b' = if b' = b then none else m.block b' := by
    intro b'
    rw [block, hbl, Striped.get_erase]
    rfl
  have hindex₁ : m₁.index = m.index := by funext i; simp [index, hks]
  have hbound₁ : ∀ k, m₁.bound k = m.bound k := fun k => by rw [bound, hindex₁]; rfl
  have hcount₁ : m₁.blockCount = m.blockCount - 1 := by
    have := totalOf_erase hb hbl (fun _ => 1)
    simp only [blockCount]
    omega
  have hrel : (m₁.release e'.size).reservedBytes = m.reservedBytes - e'.size := by
    have hsize := totalOf_erase hb hbl Entry.size
    show max 0 (m₁.reservedBytes - e'.size) = m.reservedBytes - e'.size
    rw [hres, hreserved, residentBytes]
    push_cast
    omega
  cases drop with
  | false =>
    refine ⟨m₁.release e'.size, by simp [freeWith, heq], hbooks, hblock₁, ?_, hctr, hrel, hcount₁, ?_⟩
    · intro k
      rw [if_neg (by simp)]
      exact hbound₁ k
    · intro hp
      exact (show (m₁.release e'.size).index = m.index from hindex₁) ▸ hp
  | true =>
    refine ⟨(m₁.release e'.size).dropKey? e'.key b, by simp [freeWith, heq],
      hbooks.congr (by simp) (by simp) (by simp), ?_, ?_, (idCounter_dropKey? _ _ _).trans hctr,
      (reservedBytes_dropKey? _ _ _).trans hrel,
      ?_, ?_⟩
    · intro b'
      rw [block_congr (stripes_dropKey? _ _ _)]
      exact hblock₁ b'
    · intro k
      rw [bound_dropKey?, show (m₁.release e'.size).bound k = m.bound k from hbound₁ k]
      simp
    · rw [blockCount, totalOf_congr (stripes_dropKey? _ _ _)]
      exact hcount₁
    · intro hp
      exact placed_dropKey? ((show (m₁.release e'.size).index = m.index from hindex₁) ▸ hp) _ _

/-- `free` removes the block from the plain store. -/
theorem abs_free {m : BlockManager cfg} {owed : Nat} {drawn : Multiset BlockId}
    (h : Books m owed drawn) (b : BlockId) :
    (m.free b).1.abs = m.abs.remove b ∧ (m.free b).2 = (m.abs.block b).isSome ∧
      Books (m.free b).1 owed drawn ∧
      (Striped.Placed cfg.keySlot m.index → Striped.Placed cfg.keySlot (m.free b).1.index) := by
  cases hb : m.block b with
  | none =>
    have hf : m.free b = (m, false) := freeWith_none hb true
    rw [hf, Plain.remove_of_none (show m.abs.block b = none from hb)]
    exact ⟨rfl, by simp [abs, hb], h, id⟩
  | some e =>
    obtain ⟨m', hf, hbooks, hblock, hbound, hctr, hres, hcount, hplaced⟩ := freeWith_some h hb true
    have hf' : m.free b = (m', true) := hf
    rw [hf']
    refine ⟨?_, by simp [abs, hb], hbooks, hplaced⟩
    have hab : m.abs.block b = some e := hb
    simp only [Plain.remove, hab]
    simp only [abs, Plain.mk.injEq]
    refine ⟨funext hblock, funext fun k => ?_, hctr, hres, hcount⟩
    rw [hbound k]
    by_cases hc : e.key = some k ∧ m.bound k = some b <;> simp [hc]

/-! ## Eviction is a run of `free` -/

/-- Free a list of blocks, one after the other. -/
def frees (m : BlockManager cfg) (bs : List BlockId) : BlockManager cfg :=
  bs.foldl (fun m b => (m.free b).1) m

theorem frees_cons (m : BlockManager cfg) (b : BlockId) (bs : List BlockId) :
    m.frees (b :: bs) = (m.free b).1.frees bs := rfl

theorem frees_append (m : BlockManager cfg) (bs cs : List BlockId) :
    m.frees (bs ++ cs) = (m.frees bs).frees cs := List.foldl_append

theorem abs_frees {owed : Nat} {drawn : Multiset BlockId} (bs : List BlockId) :
    ∀ {m : BlockManager cfg}, Books m owed drawn →
      (m.frees bs).abs = m.abs.removeAll bs ∧ Books (m.frees bs) owed drawn ∧
        (Striped.Placed cfg.keySlot m.index → Striped.Placed cfg.keySlot (m.frees bs).index) := by
  induction bs with
  | nil => intro m h; exact ⟨rfl, h, id⟩
  | cons b bs ih =>
    intro m h
    obtain ⟨habs, _, hbooks, hplaced⟩ := abs_free h b
    obtain ⟨habs', hbooks', hplaced'⟩ := ih hbooks
    rw [frees_cons]
    exact ⟨by rw [habs', habs, Plain.removeAll_cons], hbooks', fun hp => hplaced' (hplaced hp)⟩

/-- `Popped i m vs m'`: taking the victims `vs` out of stripe `i`, in
order, turns `m` into `m'`, and every one of them was a CACHE block. -/
inductive Popped (i : Fin cfg.stripeCount) :
    BlockManager cfg → List (Victim κ) → BlockManager cfg → Prop where
  | nil (m : BlockManager cfg) : Popped i m [] m
  | cons {m m₁ m' : BlockManager cfg} {b : BlockId} {e : Entry κ} {vs : List (Victim κ)} :
      m.popFrom i b = (m₁, some e) → e.durability = .cache → Popped i m₁ vs m' →
      Popped i m (⟨b, e.size, e.key⟩ :: vs) m'

/-- The victim loop pops what it reports, and counts it. -/
theorem takeVictims_popped (needed : Nat) (i : Fin cfg.stripeCount) (cands : List BlockId) :
    ∀ (m : BlockManager cfg) (freed : Nat),
      (∀ b ∈ cands, ∀ e, (m.stripes i).blocks.get b = some e → e.durability = .cache) →
      Popped i m (takeVictims needed i cands m freed).2.2 (takeVictims needed i cands m freed).1 ∧
        (takeVictims needed i cands m freed).2.1
          = freed + ((takeVictims needed i cands m freed).2.2.map Victim.size).sum := by
  induction cands with
  | nil => intro m freed _; exact ⟨.nil m, by simp [takeVictims]⟩
  | cons b rest ih =>
    intro m freed hc
    rcases m.popFrom_cases i b with ⟨hg, heq⟩ | ⟨e, hg, heq⟩
    · simp only [takeVictims, heq]
      exact ih m freed (fun b' hb' => hc b' (List.mem_cons_of_mem _ hb'))
    · have hcache : e.durability = .cache := hc b List.mem_cons_self e hg
      generalize hm₁ : ({ m with
          stripes := Function.update m.stripes i
            ⟨(m.stripes i).blocks.erase b, (m.stripes i).usedBytes - e.size⟩ } :
          BlockManager cfg) = m₁ at heq
      have hc₁ : ∀ b' ∈ rest, ∀ e', (m₁.stripes i).blocks.get b' = some e' →
          e'.durability = .cache := by
        intro b' hb' e' he'
        subst hm₁
        simp only [Function.update_self, Dict.get_erase] at he'
        split at he'
        · cases he'
        · exact hc b' (List.mem_cons_of_mem _ hb') e' he'
      simp only [takeVictims, heq]
      split
      · exact ⟨.cons heq hcache (.nil m₁), by simp⟩
      · obtain ⟨hpop, hfreed⟩ := ih m₁ (freed + e.size) hc₁
        exact ⟨.cons heq hcache hpop, by simp [hfreed, Nat.add_assoc]⟩

/-- What `_evict_to_free` does to one victim after the stripe lock. -/
def settle (m : BlockManager cfg) (v : Victim κ) : BlockManager cfg :=
  (m.release v.size).dropKey? v.key v.bid

theorem settle_with_stripes (m : BlockManager cfg) (v : Victim κ)
    (st : Fin cfg.stripeCount → Stripe κ) :
    ({ m with stripes := st } : BlockManager cfg).settle v = { m.settle v with stripes := st } := by
  cases hk : v.key with
  | none => simp [settle, dropKey?, hk, release]
  | some k =>
    simp only [settle, dropKey?, hk, release, dropKey]
    by_cases hg : (m.keyStripes (cfg.keySlot k)).index.get k = some v.bid <;> simp [hg]

/-- Popping reads and writes the stripes only, settling everything else. -/
theorem popFrom_settle {m m₁ : BlockManager cfg} {i : Fin cfg.stripeCount} {b : BlockId}
    {e : Entry κ} (h : m.popFrom i b = (m₁, some e)) (v : Victim κ) :
    (m.settle v).popFrom i b = (m₁.settle v, some e) := by
  have hst : (m.settle v).stripes = m.stripes := by simp [settle, release]
  rcases m.popFrom_cases i b with ⟨_, heq⟩ | ⟨e', hg, heq⟩
  · rw [heq] at h; simp at h
  rw [heq] at h
  simp only [Prod.mk.injEq, Option.some.injEq] at h
  obtain ⟨rfl, rfl⟩ := h
  have hset := m.settle_with_stripes v (Function.update m.stripes i
    ⟨(m.stripes i).blocks.erase b, (m.stripes i).usedBytes - e'.size⟩)
  rw [hset]
  simp [popFrom, hst, hg]

theorem Popped.settle {i : Fin cfg.stripeCount} {m m' : BlockManager cfg} {vs : List (Victim κ)}
    (h : Popped i m vs m') (v : Victim κ) : Popped i (m.settle v) vs (m'.settle v) := by
  induction h with
  | nil m => exact .nil _
  | cons hpop hc _ ih => exact .cons (popFrom_settle hpop v) hc ih

theorem stripes_releaseVictims (vs : List (Victim κ)) (m : BlockManager cfg) :
    (m.releaseVictims vs).stripes = m.stripes := by
  induction vs generalizing m with
  | nil => rfl
  | cons v vs ih =>
    rw [releaseVictims, ih, stripes_dropKey?]
    rfl

/-- Popping all victims and settling them afterwards is freeing them one
by one. -/
theorem Popped.frees {i : Fin cfg.stripeCount} (vs : List (Victim κ)) :
    ∀ {m m' : BlockManager cfg}, Striped.Placed cfg.slot m.blocks → Popped i m vs m' →
      m'.releaseVictims vs = m.frees (vs.map Victim.bid) := by
  induction vs with
  | nil => intro m m' _ h; cases h; rfl
  | cons v vs ih =>
    intro m m' hp h
    cases h with
    | @cons _ m₁ _ b e _ hpop hc hrest =>
      obtain ⟨hs, -, hbl, -⟩ := popFrom_some hp hpop
      have hfree : (m.free b).1 = m₁.settle ⟨b, e.size, e.key⟩ := by
        simp [free, freeWith, hs, hpop, BlockManager.settle]
      have hp₁ : Striped.Placed cfg.slot (m₁.settle ⟨b, e.size, e.key⟩).blocks := by
        rw [blocks_congr (m := m₁) (by simp [BlockManager.settle, release]), hbl]
        exact hp.erase b
      rw [List.map_cons, frees_cons, hfree]
      exact ih hp₁ (hrest.settle _)

/-- The victims are distinct resident CACHE blocks, of the recorded size. -/
theorem Popped.victims {i : Fin cfg.stripeCount} {m m' : BlockManager cfg} {vs : List (Victim κ)}
    (h : Popped i m vs m') (hp : Striped.Placed cfg.slot m.blocks) :
    (vs.map Victim.bid).Nodup ∧
      ∀ v ∈ vs, ∃ e, m.block v.bid = some e ∧ e.durability = .cache ∧ v.size = e.size := by
  induction h with
  | nil m => simp
  | @cons m m₁ m' b e vs hpop hc _ ih =>
    obtain ⟨hs, hb, hbl, -⟩ := popFrom_some hp hpop
    obtain ⟨hnd, hall⟩ := ih (by rw [hbl]; exact hp.erase b)
    have hback : ∀ v ∈ vs, v.bid ≠ b ∧
        ∃ e', m.block v.bid = some e' ∧ e'.durability = .cache ∧ v.size = e'.size := by
      intro v hv
      obtain ⟨e', he', hc', hsz⟩ := hall v hv
      rw [block, hbl, Striped.get_erase] at he'
      split at he'
      · cases he'
      · rename_i hne
        exact ⟨hne, e', he', hc', hsz⟩
    refine ⟨?_, ?_⟩
    · rw [List.map_cons, List.nodup_cons]
      refine ⟨?_, hnd⟩
      intro hmem
      obtain ⟨v, hv, hvb⟩ := List.mem_map.mp hmem
      exact (hback v hv).1 hvb
    · intro v hv
      rcases List.mem_cons.mp hv with rfl | hv
      · exact ⟨e, hb, hc, rfl⟩
      · exact (hback v hv).2

/-- The candidates of a stripe are its CACHE blocks. -/
theorem mem_candidates (m : BlockManager cfg) (sh : Shuffles cfg.stripeCount)
    (i : Fin cfg.stripeCount) (b : BlockId) :
    b ∈ sh.candidates i (m.cacheIds i) ↔
      ∃ e, (m.stripes i).blocks.get b = some e ∧ e.durability = .cache := by
  rw [(sh.candidates_perm i _).mem_iff, cacheIds, List.mem_map]
  constructor
  · rintro ⟨⟨b', e⟩, hmem, rfl⟩
    rw [List.mem_filter] at hmem
    exact ⟨e, (Dict.get_eq_some_iff _ _ _).mpr hmem.1, by simpa using hmem.2⟩
  · rintro ⟨e, hg, hc⟩
    exact ⟨(b, e), List.mem_filter.mpr ⟨(Dict.get_eq_some_iff _ _ _).mp hg, by simpa using hc⟩, rfl⟩

/-- One stripe of `_evict_to_free` pops the victims it reports, and counts them. -/
theorem evictStripe_popped (m : BlockManager cfg) (sh : Shuffles cfg.stripeCount) (needed : Nat)
    (i : Fin cfg.stripeCount) (freed : Nat) :
    Popped i m (m.evictStripe sh needed i freed).2.2 (m.evictStripe sh needed i freed).1 ∧
      (m.evictStripe sh needed i freed).2.1
        = freed + ((m.evictStripe sh needed i freed).2.2.map Victim.size).sum := by
  refine takeVictims_popped needed i (sh.candidates i (m.cacheIds i)) m freed ?_
  intro b hb e he
  obtain ⟨e', he', hc⟩ := (mem_candidates m sh i b).mp hb
  rw [he] at he'
  cases he'
  exact hc

/-- One stripe of `_evict_to_free`: the victims are freed and counted. -/
theorem evictStripe_victims {m : BlockManager cfg} (hp : Striped.Placed cfg.slot m.blocks)
    (sh : Shuffles cfg.stripeCount) (needed : Nat) (i : Fin cfg.stripeCount) (freed : Nat) :
    let victims := (m.evictStripe sh needed i freed).2.2
    (m.evictStripe sh needed i freed).1.releaseVictims victims = m.frees (victims.map Victim.bid) ∧
      (victims.map Victim.bid).Nodup ∧
      (∀ v ∈ victims, ∃ e, m.block v.bid = some e ∧ e.durability = .cache ∧ v.size = e.size) ∧
      (m.evictStripe sh needed i freed).2.1 = freed + (victims.map Victim.size).sum := by
  obtain ⟨hpop, hfreed⟩ := m.evictStripe_popped sh needed i freed
  obtain ⟨hnd, hall⟩ := hpop.victims hp
  exact ⟨Popped.frees _ hp hpop, hnd, hall, hfreed⟩

theorem sum_sizeAt {m : BlockManager cfg} {victims : List (Victim κ)}
    (h : ∀ v ∈ victims, ∃ e, m.block v.bid = some e ∧ e.durability = .cache ∧ v.size = e.size) :
    ((victims.map Victim.bid).map m.abs.sizeAt).sum = (victims.map Victim.size).sum := by
  rw [List.map_map]
  congr 1
  apply List.map_congr_left
  intro v hv
  obtain ⟨e, he, _, hsz⟩ := h v hv
  have he' : m.abs.block v.bid = some e := he
  simp [Plain.sizeAt, he', hsz]

/-- The victims of all stripes, in the order in which `_evict_to_free` pops them. -/
def victimsFrom (sh : Shuffles cfg.stripeCount) (needed : Nat) :
    List (Fin cfg.stripeCount) → BlockManager cfg → Nat → List (Victim κ)
  | [], _, _ => []
  | i :: rest, m, freed =>
      let (m', freed', victims) := m.evictStripe sh needed i freed
      let m'' := m'.releaseVictims victims
      if m''.hasRoom needed then victims else victims ++ victimsFrom sh needed rest m'' freed'

/-- `_evict_to_free` frees its victims one after the other: distinct
resident CACHE blocks. It returns the bytes they held. -/
theorem evictFrom_victims {owed : Nat} {drawn : Multiset BlockId} (sh : Shuffles cfg.stripeCount)
    (needed : Nat) (order : List (Fin cfg.stripeCount)) :
    ∀ (m : BlockManager cfg) (freed : Nat), Books m owed drawn →
      (evictFrom sh needed order m freed).1
          = m.frees ((victimsFrom sh needed order m freed).map Victim.bid) ∧
        ((victimsFrom sh needed order m freed).map Victim.bid).Nodup ∧
        (∀ v ∈ victimsFrom sh needed order m freed,
          ∃ e, m.block v.bid = some e ∧ e.durability = .cache ∧ v.size = e.size) ∧
        (evictFrom sh needed order m freed).2
          = freed + ((victimsFrom sh needed order m freed).map Victim.size).sum := by
  induction order with
  | nil => intro m freed _; exact ⟨rfl, by simp [victimsFrom], by simp [victimsFrom], rfl⟩
  | cons i rest ih =>
    intro m freed h
    obtain ⟨hrel, hnd, hall, hfreed⟩ := evictStripe_victims h.placed sh needed i freed
    simp only [evictFrom, victimsFrom]
    rw [hrel]
    generalize (m.evictStripe sh needed i freed).2.2 = vs at hrel hnd hall hfreed
    split
    · exact ⟨rfl, hnd, hall, hfreed⟩
    · obtain ⟨habs, hbooks, -⟩ := abs_frees (vs.map Victim.bid) h
      obtain ⟨hrel', hnd', hall', hfreed'⟩ :=
        ih (m.frees (vs.map Victim.bid)) (m.evictStripe sh needed i freed).2.1 hbooks
      -- what the later stripes lose was resident from the start
      have hkeep : ∀ v ∈ victimsFrom sh needed rest (m.frees (vs.map Victim.bid))
            (m.evictStripe sh needed i freed).2.1,
          v.bid ∉ vs.map Victim.bid ∧
            ∃ e, m.block v.bid = some e ∧ e.durability = .cache ∧ v.size = e.size := by
        intro v hv
        obtain ⟨e, he, hc, hsz⟩ := hall' v hv
        have he' : (m.frees (vs.map Victim.bid)).abs.block v.bid = some e := he
        rw [habs, Plain.block_removeAll] at he'
        split at he'
        · cases he'
        · rename_i hnot
          exact ⟨hnot, e, he', hc, hsz⟩
      refine ⟨by rw [hrel', List.map_append, frees_append], ?_, ?_, ?_⟩
      · rw [List.map_append]
        refine List.nodup_append.mpr ⟨hnd, hnd', fun a ha b hb heq => ?_⟩
        obtain ⟨v, hv, rfl⟩ := List.mem_map.mp hb
        exact (hkeep v hv).1 (heq ▸ ha)
      · intro v hv
        rcases List.mem_append.mp hv with hv | hv
        · exact hall v hv
        · exact (hkeep v hv).2
      · rw [hfreed', hfreed, List.map_append, List.sum_append, Nat.add_assoc]

/-- `_evict_to_free` frees distinct resident CACHE blocks, one after the
other, and returns the bytes they held. -/
theorem evictFrom_frees {owed : Nat} {drawn : Multiset BlockId} (sh : Shuffles cfg.stripeCount)
    (needed : Nat) (order : List (Fin cfg.stripeCount)) :
    ∀ (m : BlockManager cfg) (freed : Nat), Books m owed drawn →
      ∃ bs, (evictFrom sh needed order m freed).1 = m.frees bs ∧ bs.Nodup ∧
        (∀ b ∈ bs, ∃ e, m.block b = some e ∧ e.durability = .cache) ∧
        (evictFrom sh needed order m freed).2 = freed + (bs.map m.abs.sizeAt).sum := by
  intro m freed h
  obtain ⟨hrel, hnd, hall, hfreed⟩ := evictFrom_victims sh needed order m freed h
  refine ⟨_, hrel, hnd, ?_, by rw [hfreed, sum_sizeAt hall]⟩
  intro b hb
  obtain ⟨v, hv, rfl⟩ := List.mem_map.mp hb
  obtain ⟨e, he, hc, _⟩ := hall v hv
  exact ⟨e, he, hc⟩

/-! ## The simulation -/

/-- What holds between completed calls: the books are closed, bindings
sit in their key stripe, and bindings and blocks agree. -/
structure Consistent (m : BlockManager cfg) : Prop where
  books : Books m 0 0
  indexPlaced : Striped.Placed cfg.keySlot m.index
  ok : m.abs.Ok

theorem consistent_init (cfg : Settings κ) : (init cfg).Consistent where
  books := Books.init
  indexPlaced := Striped.placed_empty
  ok := by
    refine ⟨fun k b => ?_, fun b e h => ?_⟩
    · simp [abs, init, bound, block, Striped.get, index, blocks]
    · simp [abs, init, block, Striped.get, blocks] at h

/-- All managers start out as the same plain store. -/
theorem abs_init (cfg : Settings κ) : (init cfg).abs = ⟨fun _ => none, fun _ => none, 1, 0, 0⟩ := by
  have hcount : (init cfg).blockCount = 0 := by
    simp [blockCount, totalOf, Striped.sumBy, Dict.sumBy, blocks, init, Dict.empty]
  simp only [abs, hcount]
  rfl

/-- `_reserve`, `_evict_to_free`, `_reserve`: the quota part of a store
is a legal eviction followed by the plain test for room. -/
theorem acquire_spec {m : BlockManager cfg} (h : m.Consistent) (sh : Shuffles cfg.stripeCount)
    (size : Nat) :
    ∃ bs, (bs ≠ [] → (cfg.maxMemoryBytes : Int) < m.abs.used + size) ∧ bs.Nodup ∧
      (∀ b ∈ bs, ∃ e, m.abs.block b = some e ∧ e.durability = .cache) ∧
      ((∃ m', m.acquire sh size = (m', .ok ()) ∧
          (m.abs.removeAll bs).used + size ≤ cfg.maxMemoryBytes ∧
          m'.abs = (m.abs.removeAll bs).reserve size ∧ Books m' size 0 ∧
          Striped.Placed cfg.keySlot m'.index) ∨
        (∃ m', m.acquire sh size = (m', .error (.outOfMemory size (m.abs.removeAll bs).used
            cfg.maxMemoryBytes (bs.map m.abs.sizeAt).sum)) ∧
          (cfg.maxMemoryBytes : Int) < (m.abs.removeAll bs).used + size ∧
          m'.abs = m.abs.removeAll bs ∧ m'.Consistent)) := by
  rcases m.reserve_cases size with ⟨heq, hgt⟩ | ⟨m₁, heq, hle, hm₁⟩
  · -- no room: evict, then try again
    obtain ⟨bs, hev, hnd, hcache, hfreed⟩ := evictFrom_frees sh size sh.order m 0 h.books
    obtain ⟨habs, hbooks, hplaced⟩ := abs_frees bs h.books
    have hused : (m.frees bs).reservedBytes = (m.abs.removeAll bs).used := by
      rw [← habs]
      rfl
    refine ⟨bs, fun _ => hgt, hnd, hcache, ?_⟩
    rcases (m.frees bs).reserve_cases size with ⟨heq', hgt'⟩ | ⟨m₁, heq', hle', hm₁⟩
    · right
      refine ⟨m.frees bs, ?_, by rw [← hused]; exact hgt', habs,
        hbooks, hplaced h.indexPlaced, by rw [habs]; exact h.ok.removeAll bs⟩
      simp only [acquire, heq, evictToFree, hev, heq', hused]
      rw [hfreed, Nat.zero_add]
    · left
      have hb' := hbooks.reserve heq'
      refine ⟨m₁, ?_, by rw [← hused]; exact hle', ?_, by simpa using hb', ?_⟩
      · simp only [acquire, heq, evictToFree, hev, heq']
      · rw [← habs, hm₁]
        rfl
      · rw [hm₁]
        exact hplaced h.indexPlaced
  · -- room at once: nothing is evicted
    have hb' := h.books.reserve heq
    refine ⟨[], by simp, by simp, by simp, Or.inl ⟨m₁, by simp only [acquire, heq], hle, ?_,
      by simpa using hb', ?_⟩⟩
    · rw [hm₁]
      rfl
    · rw [hm₁]
      exact h.indexPlaced

/-- Inserting a block whose key is free. -/
theorem abs_insert (m : BlockManager cfg) (r : StoreReq κ)
    (hfresh : m.block m.idCounter = none) :
    (m.nextId.insertBlock m.idCounter r.entry).block
        = (m.abs.insert r).block ∧
      (m.nextId.insertBlock m.idCounter r.entry).blockCount = (m.abs.insert r).count := by
  constructor
  · funext b
    rw [block, blocks_insertBlock, Striped.get_set]
    rfl
  · exact totalOf_insertBlock (m := m.nextId) hfresh r.entry (fun _ => 1)

/-- A resident block is counted. -/
theorem blockCount_pos {m : BlockManager cfg} {b : BlockId} {e : Entry κ}
    (h : m.block b = some e) : 1 ≤ m.blockCount := by
  have hsum : m.blockCount = 1 + _ := Striped.sumBy_erase h (fun _ _ => 1)
  omega

/-- The id a store draws names no block yet. -/
theorem block_idCounter {m : BlockManager cfg} (hok : m.abs.Ok) : m.block m.idCounter = none := by
  cases hb : m.block m.idCounter with
  | none => rfl
  | some e => exact absurd (hok.fresh _ _ hb) (lt_irrefl _)

/-- A new block settles the bytes reserved for it. -/
theorem books_insert {m : BlockManager cfg} {r : StoreReq κ} (hbooks : Books m r.size 0) :
    Books (m.nextId.insertBlock m.idCounter r.entry) 0 0 := by
  have hn := hbooks.nextId
  rw [← r.size_entry, ← Nat.add_zero r.entry.size] at hn
  exact hn.insertBlock

/-- `store` up to the binding of its key: everything but the previous block. -/
theorem bindKey_insertBlock {m m₂ : BlockManager cfg} {r : StoreReq κ} {k : κ}
    {prev : Option BlockId} (hbooks : Books m r.size 0)
    (hplaced : Striped.Placed cfg.keySlot m.index) (hok : m.abs.Ok)
    (hbk : (m.nextId.insertBlock m.idCounter r.entry).bindKey k m.idCounter = (m₂, prev)) :
    prev = m.bound k ∧ m₂.block = (m.abs.insert r).block ∧ m₂.blockCount = m.blockCount + 1 ∧
      (∀ k', m₂.bound k' = if k' = k then some m.idCounter else m.bound k') ∧
      m₂.idCounter = m.idCounter + 1 ∧ m₂.reservedBytes = m.reservedBytes ∧ Books m₂ 0 0 ∧
      Striped.Placed cfg.keySlot m₂.index := by
  have hins := books_insert hbooks
  obtain ⟨hblock, hcount⟩ := abs_insert m r (block_idCounter hok)
  generalize hm₁ : m.nextId.insertBlock m.idCounter r.entry = m₁ at hins hblock hcount hbk
  have hindex₁ : m₁.index = m.index := by subst hm₁; rfl
  have hbooks₂ := hins.bindKey k m.idCounter
  have hindex₂ := index_bindKey m₁ k m.idCounter
  obtain ⟨rfl, rfl⟩ := Prod.mk.inj hbk
  rw [hindex₁] at hindex₂
  refine ⟨?_, hblock, hcount, fun k' => ?_, by subst hm₁; rfl, by subst hm₁; rfl, hbooks₂, ?_⟩
  · show m₁.bound k = m.bound k
    rw [bound, hindex₁]
    rfl
  · show Striped.get cfg.keySlot (m₁.bindKey k m.idCounter).1.index k' = _
    rw [hindex₂, Striped.get_set]
    rfl
  · show Striped.Placed cfg.keySlot (m₁.bindKey k m.idCounter).1.index
    rw [hindex₂]
    exact hplaced.set k m.idCounter

/-- `m'` is `m` after the plain `place`, with its books closed. -/
structure PlacedAs (m : BlockManager cfg) (r : StoreReq κ) (m' : BlockManager cfg) : Prop where
  abs : m'.abs = m.abs.place r
  books : Books m' 0 0
  index : Striped.Placed cfg.keySlot m'.index

section Placing

variable {m m₂ : BlockManager cfg} {r : StoreReq κ} {k : κ}

theorem placedAs_unkeyed (hbooks : Books m r.size 0) (hplaced : Striped.Placed cfg.keySlot m.index)
    (hok : m.abs.Ok) (hk : r.key = none) :
    PlacedAs m r (m.nextId.insertBlock m.idCounter r.entry) := by
  have hprev : m.abs.previous r.key = none := by rw [hk]; rfl
  obtain ⟨hblock, hcount⟩ := abs_insert m r (block_idCounter hok)
  refine ⟨?_, books_insert hbooks, hplaced⟩
  simp only [Plain.place, hprev]
  simp only [BlockManager.abs, Plain.insert, Plain.mk.injEq, hk, reduceCtorEq, if_false]
  exact ⟨hblock, rfl, rfl, rfl, hcount⟩

theorem placedAs_unbound (hbooks : Books m r.size 0) (hplaced : Striped.Placed cfg.keySlot m.index)
    (hok : m.abs.Ok) (hk : r.key = some k)
    (hbk : (m.nextId.insertBlock m.idCounter r.entry).bindKey k m.idCounter = (m₂, none)) :
    PlacedAs m r m₂ := by
  obtain ⟨hprev, hblock₂, hcount₂, hbound₂, hctr₂, hres₂, hbooks₂, hplaced₂⟩ :=
    bindKey_insertBlock hbooks hplaced hok hbk
  have habs : m.abs.previous r.key = none := by rw [hk]; exact hprev.symm
  refine ⟨?_, hbooks₂, hplaced₂⟩
  simp only [Plain.place, habs]
  simp only [BlockManager.abs, Plain.insert, Plain.mk.injEq]
  refine ⟨hblock₂, funext fun k' => ?_, hctr₂, hres₂, hcount₂⟩
  rw [hbound₂]
  simp only [hk, Option.some.injEq, eq_comm (a := k)]

/-- The previous block is freed, and the index is left alone. -/
theorem placedAs_rebound (hbooks : Books m r.size 0) (hplaced : Striped.Placed cfg.keySlot m.index)
    (hok : m.abs.Ok) (hk : r.key = some k) {previous : BlockId}
    (hbk : (m.nextId.insertBlock m.idCounter r.entry).bindKey k m.idCounter
      = (m₂, some previous)) :
    previous ≠ m.idCounter ∧ PlacedAs m r (m₂.freeWith false previous).1 := by
  obtain ⟨hprev, hblock₂, hcount₂, hbound₂, hctr₂, hres₂, hbooks₂, hplaced₂⟩ :=
    bindKey_insertBlock hbooks hplaced hok hbk
  have hub : m.bound k = some previous := hprev.symm
  obtain ⟨e, he, hke⟩ := (hok.agree k previous).mp hub
  have hne : previous ≠ m.idCounter := fun heq => lt_irrefl _ (heq ▸ hok.fresh _ _ he)
  have hpb : m₂.block previous = some e := by
    rw [hblock₂]
    exact (if_neg hne).trans he
  obtain ⟨m₃, hf, hbooks₃, hblock₃, hbound₃, hctr₃, hres₃, hcount₃, hplaced₃⟩ :=
    freeWith_some hbooks₂ hpb false
  have habs : m.abs.previous r.key = some previous := by rw [hk]; exact hub
  have hpos := blockCount_pos he
  rw [hf]
  refine ⟨hne, ?_, hbooks₃, hplaced₃ hplaced₂⟩
  have he' : m.abs.block previous = some e := he
  simp only [Plain.place, habs, Plain.remove, he']
  simp only [BlockManager.abs, Plain.insert, Plain.mk.injEq]
  refine ⟨funext fun b => ?_, funext fun k' => ?_, hctr₃.trans hctr₂, by rw [hres₃, hres₂],
    by rw [hcount₃, hcount₂]; omega⟩
  · rw [hblock₃, hblock₂]
    by_cases h1 : b = previous
    · subst h1; simp [hne]
    · simp only [h1, if_false]
      rfl
  · rw [hbound₃, hbound₂]
    by_cases hkk : k' = k
    · subst hkk; simp [hk]
    · have hkk' : ¬ k = k' := fun h => hkk h.symm
      simp [hk, hke, hkk, hkk']

end Placing

/-- Insert, rebind, free the previous block: the plain `place`. -/
theorem place_spec {m : BlockManager cfg} {r : StoreReq κ} (hbooks : Books m r.size 0)
    (hplaced : Striped.Placed cfg.keySlot m.index) (hok : m.abs.Ok) :
    (m.place r).1.abs = m.abs.place r ∧ (m.place r).2 = m.abs.next ∧ (m.place r).1.Consistent := by
  suffices hmain : PlacedAs m r (m.place r).1 ∧ (m.place r).2 = m.abs.next from
    ⟨hmain.1.abs, hmain.2, hmain.1.books, hmain.1.index, by rw [hmain.1.abs]; exact hok.place r⟩
  cases hk : r.key with
  | none =>
    have hpl : m.place r = (m.nextId.insertBlock m.idCounter r.entry, m.idCounter) := by
      simp [place, hk]
    rw [hpl]
    exact ⟨placedAs_unkeyed hbooks hplaced hok hk, rfl⟩
  | some k =>
    rcases hbk : (m.nextId.insertBlock m.idCounter r.entry).bindKey k m.idCounter
      with ⟨m₂, _ | previous⟩
    · have hpl : m.place r = (m₂, m.idCounter) := by simp [place, hk, hbk]
      rw [hpl]
      exact ⟨placedAs_unbound hbooks hplaced hok hk hbk, rfl⟩
    · obtain ⟨hne, hplacedAs⟩ := placedAs_rebound hbooks hplaced hok hk hbk
      have hpl : m.place r = ((m₂.freeWith false previous).1, m.idCounter) := by
        simp [place, hk, hbk, hne]
      rw [hpl]
      exact ⟨hplacedAs, rfl⟩

/-- **Forward simulation**: a completed call of the striped store is a
call of the plain store, with a legal eviction. -/
theorem exec_simulates {m : BlockManager cfg} (h : m.Consistent) (sh : Shuffles cfg.stripeCount)
    (c : Call κ) :
    ∃ bs, m.abs.Legal cfg.maxMemoryBytes c bs ∧
      (m.exec sh c).1.abs = (m.abs.exec cfg.maxMemoryBytes bs c).1 ∧
      (m.exec sh c).2 = (m.abs.exec cfg.maxMemoryBytes bs c).2 ∧ (m.exec sh c).1.Consistent := by
  have hnone : ∀ c' : Call κ, m.abs.Legal cfg.maxMemoryBytes c' [] := fun _ =>
    ⟨by simp, by simp, by simp⟩
  have hfree : ∀ b, (m.free b).1.Consistent := fun b => by
    obtain ⟨habs, _, hbooks, hplaced⟩ := abs_free h.books b
    exact ⟨hbooks, hplaced h.indexPlaced, by rw [habs]; exact h.ok.remove b⟩
  cases c with
  | store r =>
    by_cases hsize : r.size > Config.maxBlockSize
    · exact ⟨[], hnone _, by simp [exec, store, Plain.exec, hsize],
        by simp [exec, store, Plain.exec, hsize, Outcome.ofStore], by simpa [exec, store, hsize] using h⟩
    · obtain ⟨bs, hneed, hnd, hcache, hres⟩ := acquire_spec h sh r.size
      refine ⟨bs, ⟨fun hb => ⟨r, rfl, by omega, hneed hb⟩, hnd, hcache⟩, ?_⟩
      rcases hres with ⟨m', hacq, hroom, habs, hbooks, hplaced⟩ | ⟨m', hacq, hfull, habs, hcons⟩
      · have hok : m'.abs.Ok := by rw [habs]; exact (h.ok.removeAll bs).reserve r.size
        obtain ⟨hpl, hid, hcons⟩ := place_spec hbooks hplaced hok
        have hroom' : ¬ (m.abs.removeAll bs).used + r.size > cfg.maxMemoryBytes := by omega
        rw [habs] at hpl hid
        refine ⟨?_, ?_, ?_⟩
        · simpa [exec, store, hsize, hacq, Plain.exec, hroom'] using hpl
        · simpa [exec, store, hsize, hacq, Plain.exec, hroom', Outcome.ofStore] using hid
        · simpa [exec, store, hsize, hacq] using hcons
      · have hfull' : (m.abs.removeAll bs).used + r.size > cfg.maxMemoryBytes := hfull
        refine ⟨?_, ?_, ?_⟩
        · simpa [exec, store, hsize, hacq, Plain.exec, hfull'] using habs
        · simp [exec, store, hsize, hacq, Plain.exec, hfull', Outcome.ofStore]
        · simpa [exec, store, hsize, hacq] using hcons
  | load b => exact ⟨[], hnone _, rfl, rfl, h⟩
  | loadByKey k =>
    refine ⟨[], hnone _, rfl, ?_, h⟩
    simp only [exec, loadByKey, Plain.exec, abs, Outcome.loaded.injEq]
    cases m.bound k <;> rfl
  | free b =>
    obtain ⟨habs, hret, _, _⟩ := abs_free h.books b
    exact ⟨[], hnone _, by simpa [exec, Plain.exec] using habs,
      by simp [exec, Plain.exec, hret], by simpa [exec] using hfree b⟩
  | freeByKey k =>
    refine ⟨[], hnone _, ?_⟩
    cases hk : m.bound k with
    | none =>
      have hk' : m.abs.bound k = none := hk
      exact ⟨by simp [exec, freeByKey, hk, Plain.exec, hk'],
        by simp [exec, freeByKey, hk, Plain.exec, hk'], by simpa [exec, freeByKey, hk] using h⟩
    | some b =>
      have hk' : m.abs.bound k = some b := hk
      obtain ⟨habs, hret, _, _⟩ := abs_free h.books b
      exact ⟨by simpa [exec, freeByKey, hk, Plain.exec, hk'] using habs,
        by simp [exec, freeByKey, hk, Plain.exec, hk', hret],
        by simpa [exec, freeByKey, hk] using hfree b⟩

end BlockManager

end Memnode.Blocks
