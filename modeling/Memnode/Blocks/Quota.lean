/-
Memnode.Blocks.Quota — the quota accounting is exact under every
interleaving.

`Books m owed drawn` is the invariant, with the two quantities that a
half-done call contributes as parameters: `owed` is the number of bytes
that are counted in `reservedBytes` and are not resident (reserved and
not inserted, or popped and not released), `drawn` the block ids handed
out and not inserted yet. There is one lemma for each critical section,
saying how the section moves bytes between residence, debt and the
quota. The eviction loop is the induction `Books.takeVictims`.

`quota_exact` then follows from the accounting rule of `Lib.Pool`: the
weight of a task is what it holds at its suspension point, and a step
of one task is one section.
-/
import Mathlib.Algebra.Order.BigOperators.Group.List
import Mathlib.Algebra.Order.Group.Nat
import Mathlib.Data.Multiset.AddSub
import Memnode.Blocks.Tasks

set_option linter.unusedSectionVars false

namespace Memnode.Blocks

open Lib

variable {κ : Type} [DecidableEq κ] {cfg : Settings κ}

namespace BlockManager

/-! ## What each section does to the block table -/

theorem blocks_insertBlock (m : BlockManager cfg) (b : BlockId) (e : Entry κ) :
    (m.insertBlock b e).blocks = Striped.set cfg.slot m.blocks b e := by
  funext i
  by_cases h : i = cfg.slot b
  · subst h; simp [insertBlock, blocks, Striped.set]
  · simp [insertBlock, blocks, Striped.set, h]

/-- Everything `popFrom` can do. -/
theorem popFrom_cases (m : BlockManager cfg) (i : Fin cfg.stripeCount) (b : BlockId) :
    ((m.stripes i).blocks.get b = none ∧ m.popFrom i b = (m, none)) ∨
    ∃ e, (m.stripes i).blocks.get b = some e ∧
      m.popFrom i b
        = ({ m with
              stripes := Function.update m.stripes i
                ⟨(m.stripes i).blocks.erase b, (m.stripes i).usedBytes - e.size⟩ }, some e) := by
  cases hg : (m.stripes i).blocks.get b with
  | none => exact Or.inl ⟨rfl, by simp [popFrom, hg]⟩
  | some e => exact Or.inr ⟨e, rfl, by simp [popFrom, hg]⟩

theorem reservedBytes_popFrom (m : BlockManager cfg) (i : Fin cfg.stripeCount) (b : BlockId) :
    (m.popFrom i b).1.reservedBytes = m.reservedBytes := by
  rcases popFrom_cases m i b with ⟨_, heq⟩ | ⟨e, _, heq⟩ <;> rw [heq]

/-- A successful pop, in terms of the whole table. -/
theorem popFrom_some {m m' : BlockManager cfg} {i : Fin cfg.stripeCount} {b : BlockId}
    {e : Entry κ} (hp : Striped.Placed cfg.slot m.blocks) (h : m.popFrom i b = (m', some e)) :
    cfg.slot b = i ∧ m.block b = some e ∧ m'.blocks = Striped.erase cfg.slot m.blocks b ∧
      m'.keyStripes = m.keyStripes ∧ m'.reservedBytes = m.reservedBytes ∧
      m'.idCounter = m.idCounter := by
  rcases popFrom_cases m i b with ⟨_, heq⟩ | ⟨e', hg, heq⟩
  · rw [heq] at h; simp at h
  · rw [heq] at h
    simp only [Prod.mk.injEq, Option.some.injEq] at h
    obtain ⟨rfl, rfl⟩ := h
    have hs : cfg.slot b = i := hp i b e' hg
    refine ⟨hs, hp.get_of_member hg, ?_, rfl, rfl, rfl⟩
    subst hs
    funext j
    by_cases hj : j = cfg.slot b
    · subst hj; simp [blocks, Striped.erase]
    · simp [blocks, Striped.erase, hj]

/-- What a pop keeps, the victim loop keeps. -/
theorem takeVictims_induction {P : BlockManager cfg → Prop} (needed : Nat)
    (i : Fin cfg.stripeCount) (hpop : ∀ m b, P m → P (m.popFrom i b).1) (cands : List BlockId) :
    ∀ (m : BlockManager cfg) (freed : Nat), P m → P (takeVictims needed i cands m freed).1 := by
  induction cands with
  | nil =>
    intro m freed h
    exact h
  | cons b rest ih =>
    intro m freed h
    have hnext := hpop m b h
    rcases heq : m.popFrom i b with ⟨m₁, _ | e⟩
    · simp only [takeVictims, heq]
      exact ih m freed h
    · rw [heq] at hnext
      simp only [takeVictims, heq]
      split
      · exact hnext
      · exact ih m₁ _ hnext

/-- One insertion, in a total. -/
theorem totalOf_insertBlock {m : BlockManager cfg} {b : BlockId} (h : m.block b = none)
    (e : Entry κ) (f : Entry κ → Nat) : (m.insertBlock b e).totalOf f = m.totalOf f + f e := by
  rw [totalOf, blocks_insertBlock]
  exact Striped.sumBy_set_of_none h e (fun _ e => f e)

/-- One removal, in a total. -/
theorem totalOf_erase {m m' : BlockManager cfg} {b : BlockId} {e : Entry κ}
    (h : m.block b = some e) (hm' : m'.blocks = Striped.erase cfg.slot m.blocks b)
    (f : Entry κ → Nat) : m.totalOf f = f e + m'.totalOf f := by
  rw [totalOf, totalOf, hm']
  exact Striped.sumBy_erase h (fun _ e => f e)

/-- Everything `_reserve` can do. -/
theorem reserve_cases (m : BlockManager cfg) (size : Nat) :
    (m.reserve size = (m, false) ∧ (cfg.maxMemoryBytes : Int) < m.reservedBytes + size) ∨
    ∃ m', m.reserve size = (m', true) ∧ m.reservedBytes + size ≤ cfg.maxMemoryBytes ∧
      m' = { m with reservedBytes := m.reservedBytes + size } := by
  unfold reserve
  split
  · exact Or.inl ⟨rfl, by omega⟩
  · exact Or.inr ⟨_, rfl, by omega, rfl⟩

@[simp] theorem stripes_dropKey (m : BlockManager cfg) (k : κ) (b : BlockId) :
    (m.dropKey k b).stripes = m.stripes := by
  unfold dropKey; split <;> rfl

@[simp] theorem reservedBytes_dropKey (m : BlockManager cfg) (k : κ) (b : BlockId) :
    (m.dropKey k b).reservedBytes = m.reservedBytes := by
  unfold dropKey; split <;> rfl

@[simp] theorem idCounter_dropKey (m : BlockManager cfg) (k : κ) (b : BlockId) :
    (m.dropKey k b).idCounter = m.idCounter := by
  unfold dropKey; split <;> rfl

end BlockManager

/-! ## The invariant -/

/-- The books of a manager with `owed` bytes in the hands of half-done
calls and the ids `drawn` not inserted yet. -/
structure Books (m : BlockManager cfg) (owed : Nat) (drawn : Multiset BlockId) : Prop where
  placed : Striped.Placed cfg.slot m.blocks
  used : ∀ i, (m.stripes i).usedBytes = ((m.stripes i).blocks.sumBy (fun _ e => e.size) : Nat)
  reserved : m.reservedBytes = (m.residentBytes + owed : Nat)
  quota : m.reservedBytes ≤ cfg.maxMemoryBytes
  drawn_nodup : drawn.Nodup
  drawn_fresh : ∀ b ∈ drawn, b < m.idCounter ∧ m.block b = none
  resident_old : ∀ b e, m.block b = some e → b < m.idCounter

namespace Books

variable {m m' : BlockManager cfg} {owed : Nat} {drawn : Multiset BlockId}

theorem init : Books (BlockManager.init cfg) 0 0 where
  placed := Striped.placed_empty
  used := fun _ => rfl
  reserved := by
    simp [BlockManager.init, BlockManager.residentBytes, BlockManager.totalOf, Striped.sumBy,
      BlockManager.blocks, Dict.sumBy, Dict.empty]
  quota := by simp [BlockManager.init]
  drawn_nodup := Multiset.nodup_zero
  drawn_fresh := by simp
  resident_old := by
    intro b e h
    simp [BlockManager.init, BlockManager.block, BlockManager.blocks, Striped.get] at h

/-- The invariant reads the stripes, the counter and the quota only. -/
theorem congr (h : Books m owed drawn) (hs : m'.stripes = m.stripes)
    (hr : m'.reservedBytes = m.reservedBytes) (hc : m'.idCounter = m.idCounter) :
    Books m' owed drawn := by
  obtain ⟨st, ks, res, ctr⟩ := m
  obtain ⟨st', ks', res', ctr'⟩ := m'
  simp only at hs hr hc
  subst hs hr hc
  exact ⟨h.placed, h.used, h.reserved, h.quota, h.drawn_nodup, h.drawn_fresh, h.resident_old⟩

theorem bindKey (h : Books m owed drawn) (k : κ) (b : BlockId) :
    Books (m.bindKey k b).1 owed drawn :=
  h.congr rfl rfl rfl

theorem dropKey (h : Books m owed drawn) (k : κ) (b : BlockId) :
    Books (m.dropKey k b) owed drawn :=
  h.congr (by simp) (by simp) (by simp)

/-- A granted reservation is a debt. -/
theorem reserve {size : Nat} (h : Books m owed drawn) (hres : m.reserve size = (m', true)) :
    Books m' (size + owed) drawn := by
  rcases m.reserve_cases size with ⟨heq, _⟩ | ⟨m₁, heq, hle, hm₁⟩
  · rw [heq] at hres; simp at hres
  rw [heq] at hres
  simp only [Prod.mk.injEq, and_true] at hres
  subst hres hm₁
  refine ⟨h.placed, h.used, ?_, hle, h.drawn_nodup, h.drawn_fresh, h.resident_old⟩
  have hr := h.reserved
  show m.reservedBytes + size = ((m.residentBytes + (size + owed) : Nat) : Int)
  push_cast at hr ⊢
  omega

/-- The id drawn next is fresh. -/
theorem nextId (h : Books m owed drawn) : Books m.nextId owed ({m.idCounter} + drawn) := by
  have hlt : m.idCounter < m.nextId.idCounter := by simp [BlockManager.nextId]
  refine ⟨h.placed, h.used, h.reserved, h.quota, ?_, ?_, ?_⟩
  · have hfresh : m.idCounter ∉ drawn := fun hmem => lt_irrefl _ (h.drawn_fresh _ hmem).1
    simpa using ⟨hfresh, h.drawn_nodup⟩
  · intro b hb
    simp only [Multiset.singleton_add, Multiset.mem_cons] at hb
    rcases hb with rfl | hb
    · refine ⟨hlt, ?_⟩
      cases hblk : m.block m.idCounter with
      | none => exact hblk
      | some e => exact absurd (h.resident_old _ _ hblk) (lt_irrefl _)
    · have hd := h.drawn_fresh b hb
      exact ⟨lt_trans hd.1 hlt, hd.2⟩
  · intro b e hb
    exact lt_trans (h.resident_old b e hb) hlt

/-- Releasing a debt gives the bytes back, and the clamp never bites. -/
theorem release {size : Nat} (h : Books m (size + owed) drawn) :
    Books (m.release size) owed drawn := by
  have hr := h.reserved
  have hq := h.quota
  push_cast at hr
  refine ⟨h.placed, h.used, ?_, ?_, h.drawn_nodup, h.drawn_fresh, h.resident_old⟩
  · show max 0 (m.reservedBytes - size) = ((m.residentBytes + owed : Nat) : Int)
    push_cast
    omega
  · show max 0 (m.reservedBytes - size) ≤ (cfg.maxMemoryBytes : Int)
    omega

/-- Inserting turns a store's debt into residence. -/
theorem insertBlock {b : BlockId} {e : Entry κ} (h : Books m (e.size + owed) ({b} + drawn)) :
    Books (m.insertBlock b e) owed drawn := by
  have hb := h.drawn_fresh b (by simp)
  have hnd : b ∉ drawn ∧ drawn.Nodup := by simpa using h.drawn_nodup
  have hblock : ∀ b', (m.insertBlock b e).block b' = if b' = b then some e else m.block b' := by
    intro b'
    rw [BlockManager.block, BlockManager.blocks_insertBlock, Striped.get_set]
    rfl
  refine ⟨?_, ?_, ?_, h.quota, hnd.2, ?_, ?_⟩
  · rw [BlockManager.blocks_insertBlock]
    exact h.placed.set b e
  · intro i
    by_cases hi : i = cfg.slot b
    · subst hi
      have hu := h.used (cfg.slot b)
      have hn : (m.stripes (cfg.slot b)).blocks.get b = none := hb.2
      simp only [BlockManager.insertBlock, Function.update_self, Dict.sumBy_set_of_none hn, hu]
      push_cast
      omega
    · simpa [BlockManager.insertBlock, hi] using h.used i
  · have hr := h.reserved
    show m.reservedBytes = (((m.insertBlock b e).residentBytes + owed : Nat) : Int)
    rw [hr, BlockManager.residentBytes, BlockManager.residentBytes,
      BlockManager.totalOf_insertBlock hb.2]
    omega
  · intro b' hb'
    have hd := h.drawn_fresh b' (by simp [hb'])
    have hne : b' ≠ b := fun heq => hnd.1 (heq ▸ hb')
    exact ⟨hd.1, by rw [hblock, if_neg hne]; exact hd.2⟩
  · intro b' e' hb'
    rw [hblock] at hb'
    split at hb'
    · rename_i heq; subst heq; exact hb.1
    · exact h.resident_old b' e' hb'

/-- Popping turns residence into a debt. -/
theorem popFrom {i : Fin cfg.stripeCount} {b : BlockId} {e : Entry κ} (h : Books m owed drawn)
    (hpop : m.popFrom i b = (m', some e)) : Books m' (e.size + owed) drawn := by
  obtain ⟨hs, hblk, hbl, -, hres, hctr⟩ := BlockManager.popFrom_some h.placed hpop
  have hblock : ∀ b', m'.block b' = if b' = b then none else m.block b' := by
    intro b'
    rw [BlockManager.block, hbl, Striped.get_erase]
    rfl
  refine ⟨?_, ?_, ?_, by rw [hres]; exact h.quota, h.drawn_nodup, ?_, ?_⟩
  · rw [hbl]
    exact h.placed.erase b
  · rcases m.popFrom_cases i b with ⟨_, heq⟩ | ⟨e', hg, heq⟩
    · rw [heq] at hpop; simp at hpop
    rw [heq] at hpop
    simp only [Prod.mk.injEq, Option.some.injEq] at hpop
    obtain ⟨rfl, rfl⟩ := hpop
    intro j
    have hu := h.used j
    by_cases hj : j = i
    · subst hj
      rw [Dict.sumBy_erase hg] at hu
      simp only [Function.update_self, hu]
      push_cast
      omega
    · simpa [hj] using hu
  · rw [hres, h.reserved, BlockManager.residentBytes, BlockManager.residentBytes,
      BlockManager.totalOf_erase hblk hbl]
    omega
  · intro b' hb'
    have hd := h.drawn_fresh b' hb'
    refine ⟨by rw [hctr]; exact hd.1, ?_⟩
    rw [hblock]
    split
    · rfl
    · exact hd.2
  · intro b' e' hb'
    rw [hblock] at hb'
    split at hb'
    · cases hb'
    · rw [hctr]; exact h.resident_old b' e' hb'

/-- The victim loop turns the residence of its victims into a debt. -/
theorem takeVictims (needed : Nat) (i : Fin cfg.stripeCount) (cands : List BlockId) :
    ∀ (m : BlockManager cfg) (owed freed : Nat), Books m owed drawn →
      Books (BlockManager.takeVictims needed i cands m freed).1
        (((BlockManager.takeVictims needed i cands m freed).2.2.map Victim.size).sum + owed)
        drawn := by
  induction cands with
  | nil => intro m owed freed h; simpa [BlockManager.takeVictims] using h
  | cons b rest ih =>
    intro m owed freed h
    rcases hpop : m.popFrom i b with ⟨m₁, _ | e⟩
    · simp only [BlockManager.takeVictims, hpop]
      exact ih m owed freed h
    · have h₁ := h.popFrom hpop
      simp only [BlockManager.takeVictims, hpop]
      split
      · simpa using h₁
      · have h₂ := ih m₁ _ (freed + e.size) h₁
        simpa [Nat.add_assoc, Nat.add_left_comm] using h₂

end Books

/-! ## Every step of every task keeps the books -/

namespace Task

/-- The weight of a task: bytes reserved and not inserted, bytes popped
and not released, ids drawn and not inserted. -/
def weight (t : Task cfg) : Nat × Nat × Multiset BlockId := (t.unplaced, t.unreleased, t.drawn)

/-- The books with the total weight of the tasks as debt. -/
def Balanced (m : BlockManager cfg) (w : Nat × Nat × Multiset BlockId) : Prop :=
  Books m (w.1 + w.2.1) w.2.2

@[simp] theorem weight_nextStripe (r : StoreReq κ) (sh : Shuffles cfg.stripeCount)
    (todo : List (Fin cfg.stripeCount)) (freed : Nat) :
    (nextStripe r sh todo freed).weight = 0 := by
  cases todo <;> rfl

@[simp] theorem weight_nextVictim (m : BlockManager cfg) (r : StoreReq κ)
    (sh : Shuffles cfg.stripeCount) (vs : List (Victim κ)) (todo : List (Fin cfg.stripeCount))
    (freed : Nat) :
    (nextVictim m r sh vs todo freed).weight = (0, (vs.map Victim.size).sum, 0) := by
  cases vs with
  | nil =>
    simp only [nextVictim]
    split
    · rfl
    · exact weight_nextStripe r sh todo freed
  | cons v rest => rfl

theorem weight_start {t : Task cfg} (h : Start t) : t.weight = 0 := by
  cases h with
  | store r sh => unfold Task.store; split <;> rfl
  | load b => rfl
  | loadByKey k => rfl
  | free b => rfl
  | freeByKey k => rfl

/-- A granted `_reserve`, at the first or the second try. -/
theorem balanced_reserve {m m' : BlockManager cfg} {r : StoreReq κ}
    {rest : Nat × Nat × Multiset BlockId} (h : Balanced m rest)
    (hres : m.reserve r.size = (m', true)) :
    Balanced m'.nextId ((Task.insert m'.idCounter r : Task cfg).weight + rest) := by
  have hb := (Books.reserve h hres).nextId
  simp only [Balanced, weight, unplaced, unreleased, drawn, Prod.fst_add, Prod.snd_add]
  rwa [Nat.zero_add, Nat.add_assoc]

/-- A refused `_reserve` changes nothing. -/
theorem reserve_refused {m m' : BlockManager cfg} {size : Nat}
    (hres : m.reserve size = (m', false)) : m' = m := by
  rcases m.reserve_cases size with ⟨heq, _⟩ | ⟨m₁, heq, _⟩ <;> rw [heq] at hres <;> simp at hres
  exact hres.symm

/-- One step of one task keeps the books, whatever the others hold. -/
theorem balanced_step (m : BlockManager cfg) (t : Task cfg)
    (rest : Nat × Nat × Multiset BlockId) (h : Balanced m (t.weight + rest)) :
    Balanced (step m t).1 ((step m t).2.weight + rest) := by
  obtain ⟨unp, unr, ids⟩ := rest
  cases t with
  | reserve r sh =>
    have h0 : Balanced m (unp, unr, ids) := by simpa [weight, unplaced, unreleased, drawn] using h
    rcases hres : m.reserve r.size with ⟨m', _ | _⟩
    · simpa [step, hres, reserve_refused hres] using h0
    · simpa [step, hres] using balanced_reserve h0 hres
  | evict r sh i todo freed =>
    have h0 : Books m (unp + unr) ids := by
      simpa [Balanced, weight, unplaced, unreleased, drawn] using h
    have hv := Books.takeVictims r.size i (sh.candidates i (m.cacheIds i)) m _ freed h0
    simpa [step, Balanced, BlockManager.evictStripe, Nat.add_left_comm] using hv
  | releaseVictim r sh v vs todo freed =>
    have h0 : Books m (v.size + (unp + ((vs.map Victim.size).sum + unr))) ids := by
      simpa [Balanced, weight, unplaced, unreleased, drawn, Nat.add_assoc, Nat.add_left_comm]
        using h
    have hr := h0.release
    cases hk : v.key with
    | none => simpa [step, hk, Balanced] using hr
    | some k => simpa [step, hk, Balanced, weight, unplaced, unreleased, drawn] using hr
  | dropVictimKey r sh k bid vs todo freed =>
    have h0 : Books m (unp + ((vs.map Victim.size).sum + unr)) ids := by
      simpa [Balanced, weight, unplaced, unreleased, drawn] using h
    simpa [step, Balanced] using h0.dropKey k bid
  | retry r freed =>
    have h0 : Balanced m (unp, unr, ids) := by simpa [weight, unplaced, unreleased, drawn] using h
    rcases hres : m.reserve r.size with ⟨m', _ | _⟩
    · simpa [step, hres, reserve_refused hres, weight, unplaced, unreleased, drawn] using h0
    · simpa [step, hres] using balanced_reserve h0 hres
  | insert b r =>
    have h0 : Books m (r.entry.size + (unp + unr)) ({b} + ids) := by
      simpa [Balanced, weight, unplaced, unreleased, drawn, Nat.add_assoc] using h
    have hi := h0.insertBlock
    cases hk : r.key with
    | none => simpa [step, hk, Balanced, weight, unplaced, unreleased, drawn] using hi
    | some k => simpa [step, hk, Balanced, weight, unplaced, unreleased, drawn] using hi
  | bind b k =>
    have h0 : Books m (unp + unr) ids := by
      simpa [Balanced, weight, unplaced, unreleased, drawn] using h
    have hb := h0.bindKey k b
    rcases hbk : m.bindKey k b with ⟨m', _ | previous⟩
    · rw [hbk] at hb
      simpa [step, hbk, Balanced, weight, unplaced, unreleased, drawn] using hb
    · rw [hbk] at hb
      simp only [step, hbk]
      split <;> simpa [Balanced, weight, unplaced, unreleased, drawn] using hb
  | pop b drop caller =>
    have h0 : Books m (unp + unr) ids := by
      simpa [Balanced, weight, unplaced, unreleased, drawn] using h
    rcases hpop : m.popFrom (cfg.slot b) b with ⟨m', _ | e⟩
    · have hm : m' = m := by
        rcases m.popFrom_cases (cfg.slot b) b with ⟨_, heq⟩ | ⟨e, _, heq⟩ <;>
          rw [heq] at hpop <;> simp at hpop
        exact hpop.symm
      subst hm
      simpa [step, hpop, Balanced, weight, unplaced, unreleased, drawn] using h0
    · have hp := h0.popFrom hpop
      simpa [step, hpop, Balanced, weight, unplaced, unreleased, drawn, Nat.add_left_comm] using hp
  | release b size key drop caller =>
    have h0 : Books m (size + (unp + unr)) ids := by
      simpa [Balanced, weight, unplaced, unreleased, drawn, Nat.add_left_comm] using h
    have hr := h0.release
    cases drop <;> cases key <;>
      simpa [step, Balanced, weight, unplaced, unreleased, drawn] using hr
  | dropKey b k caller =>
    have h0 : Books m (unp + unr) ids := by
      simpa [Balanced, weight, unplaced, unreleased, drawn] using h
    simpa [step, Balanced, weight, unplaced, unreleased, drawn] using h0.dropKey k b
  | load b => simpa [step, weight, unplaced, unreleased, drawn] using h
  | loadKey k =>
    simp only [step]
    split <;> simpa [weight, unplaced, unreleased, drawn] using h
  | freeKey k =>
    simp only [step]
    split <;> simpa [weight, unplaced, unreleased, drawn] using h
  | done o => simpa [step, weight, unplaced, unreleased, drawn] using h

end Task

/-! ## Every reachable state -/

namespace System

/-- Bytes reserved by stores that have not inserted their block yet. -/
def unplaced (s : System cfg) : Nat := (s.tasks.map Task.unplaced).sum

/-- Bytes of blocks already popped whose `_release` has not run yet. -/
def unreleased (s : System cfg) : Nat := (s.tasks.map Task.unreleased).sum

theorem weight_eq (s : System cfg) :
    s.weight Task.weight = (s.unplaced, s.unreleased, (s.tasks.map Task.drawn).sum) := by
  unfold Pool.weight unplaced unreleased
  induction s.tasks with
  | nil => rfl
  | cons t ts ih => simp [ih, Task.weight]

/-- The books of a reachable state. -/
theorem Reachable.books {s : System cfg} (h : s.Reachable) :
    Books s.shared (s.unplaced + s.unreleased) (s.tasks.map Task.drawn).sum := by
  have hacc := Pool.Reachable.accounting h Task.weight Task.Balanced
    (by simpa [Task.Balanced] using Books.init)
    (fun t ht => Task.weight_start ht) Task.balanced_step
  rw [weight_eq] at hacc
  exact hacc

/-- A task's debt is part of the total. -/
theorem releasing_le_unreleased {s : System cfg} {t : Task cfg} (ht : t ∈ s.tasks) {size : Nat}
    (hr : t.releasing = some size) : size ≤ s.unreleased := by
  have hle : size ≤ t.unreleased := by
    cases t <;> simp only [Task.releasing, Task.unreleased, Option.some.injEq, reduceCtorEq] at hr ⊢
      <;> omega
  exact hle.trans (List.le_sum_of_mem (List.mem_map.mpr ⟨t, ht, rfl⟩))

end System

/-- The accounting of a block manager is exact in every state that any
interleaving of `store`, `load`, `load_by_key`, `free` and `free_by_key`
calls reaches. -/
theorem quota_exact (cfg : Settings κ) (s : System cfg) (h : s.Reachable) :
    s.shared.reservedBytes = s.shared.residentBytes + s.unplaced + s.unreleased ∧
    (∀ i, (s.shared.stripes i).usedBytes
      = ((s.shared.stripes i).blocks.sumBy (fun _ e => e.size) : Nat)) ∧
    (s.shared.residentBytes : Int) ≤ s.shared.reservedBytes ∧
    s.shared.reservedBytes ≤ cfg.maxMemoryBytes ∧
    (∀ t ∈ s.tasks, ∀ size, t.releasing = some size →
      max 0 (s.shared.reservedBytes - size) = s.shared.reservedBytes - size) := by
  have hb := h.books
  have hres := hb.reserved
  push_cast at hres
  refine ⟨by omega, hb.used, by omega, hb.quota, ?_⟩
  intro t ht size hr
  have hle := System.releasing_le_unreleased ht hr
  omega

/-- A second store under the key of the first, suspended in the `free`
of the block it replaced: three bytes are reserved and nowhere resident. -/
theorem quota_exact_rebind :
    ∃ s : System (⟨8, 2, by decide, Int.ofNat⟩ : Settings Nat), s.Reachable ∧
      s.shared.residentBytes = 2 ∧ s.unreleased = 3 ∧
      s.shared.reservedBytes = s.shared.residentBytes + s.unplaced + s.unreleased := by
  have empty : System.Reachable (⟨.init ⟨8, 2, by decide, Int.ofNat⟩, []⟩ :
      System (⟨8, 2, by decide, Int.ofNat⟩ : Settings Nat)) := .refl
  have first := empty.tail (.spawn _ _
    (Task.ofCall (.identity 2) (.store ⟨[1, 2, 3], .pinned, some 7⟩)) (Task.start_ofCall _ _))
  have stored := Pool.Reachable.alone (l := []) (r := []) first (Task.alone_exec _ _ _)
  have second := stored.tail (.spawn _ _
    (Task.ofCall (.identity 2) (.store ⟨[4, 5], .cache, some 7⟩)) (Task.start_ofCall _ _))
  have reserved := second.tail (.advance _ [_] _ [])
  have inserted := reserved.tail (.advance _ [_] _ [])
  have bound := inserted.tail (.advance _ [_] _ [])
  have popped := bound.tail (.advance _ [_] _ [])
  exact ⟨_, popped, by decide, by decide, (quota_exact _ _ popped).1⟩

end Memnode.Blocks
