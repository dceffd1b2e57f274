/-
Memnode.Blocks.Concurrent — what callers see when their calls overlap.

`Blocks.Refinement` is about calls that complete one after another. Here
the calls are interleaved in any way, and each task carries the call it
runs. As it goes on, a task leaves marks: it was called, it drew an id,
its block is placed, its key is bound. Marks are never taken back, so
everything marked so far is a board that only grows, and the facts below
are carried over every schedule by `Lib.Pool.Reachable.board`.

  §1 calls and their marks;
  §2 what the manager owes to the board (`Told`), section by section;
  §3 what each task knows (`Knows`), and one step of one call;
  §4 a read returns what was stored (`concurrent_reads_genuine`), and a
     pinned block stays until a call names it (`pinned_survives`);
  §5 every call returns, whatever the others do (`every_call_returns`).
-/
import Mathlib.Data.Prod.Lex
import Mathlib.Order.WellFounded
import Memnode.Blocks.Removal

set_option linter.unusedSectionVars false

namespace Memnode.Blocks

open Lib

variable {κ : Type} [DecidableEq κ] {cfg : Settings κ}

/-! ## §1 Calls and their marks -/

/-- How far a call has come, as far as it matters to others. -/
inductive Mark where
  | called
  /-- `next(self._id_counter)` has returned `b` -/
  | drew (b : BlockId)
  /-- the block is in its stripe -/
  | placed (b : BlockId)
  /-- the key, if there is one, is bound to the block -/
  | keyed (b : BlockId)
  deriving DecidableEq

def FreeCaller.marks : FreeCaller → List Mark
  | .api => [.called]
  | .rebind b => [.called, .drew b, .placed b, .keyed b]

namespace Task

def marks : Task cfg → List Mark
  | .insert b _ => [.called, .drew b]
  | .bind b _ => [.called, .drew b, .placed b]
  | .pop _ _ caller => caller.marks
  | .release _ _ _ _ caller => caller.marks
  | .dropKey _ _ caller => caller.marks
  | .done (.stored b) => [.called, .drew b, .placed b, .keyed b]
  | _ => [.called]

@[simp] theorem marks_nextStripe (r : StoreReq κ) (sh : Shuffles cfg.stripeCount)
    (todo : List (Fin cfg.stripeCount)) (freed : Nat) :
    (nextStripe r sh todo freed).marks = [.called] := by
  cases todo <;> rfl

@[simp] theorem marks_nextVictim (m : BlockManager cfg) (r : StoreReq κ)
    (sh : Shuffles cfg.stripeCount) (vs : List (Victim κ)) (todo : List (Fin cfg.stripeCount))
    (freed : Nat) : (nextVictim m r sh vs todo freed).marks = [.called] := by
  cases vs with
  | nil =>
    simp only [nextVictim]
    split
    · rfl
    · exact marks_nextStripe r sh todo freed
  | cons v rest => rfl

@[simp] theorem marks_outcome (caller : FreeCaller) (ok : Bool) :
    (Task.done (caller.outcome ok) : Task cfg).marks = caller.marks := by
  cases caller <;> rfl

end Task

/-- The marks of all calls. -/
abbrev Board (κ : Type) := Set (Call κ × Mark)

/-- A board with more marks of one call. -/
def Board.add (F : Board κ) (c : Call κ) (new : List Mark) : Board κ :=
  F ∪ {f | f.1 = c ∧ f.2 ∈ new}

/-- What a call and its task put on the board. -/
def tells (t : Call κ × Task cfg) : Board κ := {f | f.1 = t.1 ∧ f.2 ∈ t.2.marks}

@[simp] theorem mem_add {F : Board κ} {c c' : Call κ} {new : List Mark} {x : Mark} :
    (c', x) ∈ F.add c new ↔ (c', x) ∈ F ∨ c' = c ∧ x ∈ new := Iff.rfl

theorem subset_add (F : Board κ) (c : Call κ) (new : List Mark) : F ⊆ F.add c new :=
  Set.subset_union_left

@[simp] theorem add_nil (F : Board κ) (c : Call κ) : F.add c [] = F := by
  ext ⟨c', x⟩
  simp

theorem union_tells {F : Board κ} {c : Call κ} {t t' : Task cfg} {new : List Mark}
    (hF : tells (c, t) ⊆ F) (hmarks : t'.marks = t.marks ++ new) :
    F ∪ tells (c, t') = F.add c new := by
  ext ⟨c', x⟩
  constructor
  · rintro (h | ⟨rfl, hx⟩)
    · exact .inl h
    · rw [hmarks, List.mem_append] at hx
      rcases hx with hx | hx
      · exact .inl (hF ⟨rfl, hx⟩)
      · exact .inr ⟨rfl, hx⟩
  · rintro (h | ⟨rfl, hx⟩)
    · exact .inl h
    · refine .inr ⟨rfl, ?_⟩
      rw [hmarks, List.mem_append]
      exact .inr hx

/-! ## §2 What the manager owes to the board -/

/-- A call that may take block `b`, stored by `r`, away: a `free` of the
id, a `free_by_key` of the key, or a store that drew another id under it. -/
def Threatened (F : Board κ) (b : BlockId) (r : StoreReq κ) : Prop :=
  (.free b, .called) ∈ F ∨
    ∃ k, r.key = some k ∧ ((.freeByKey k, .called) ∈ F ∨
      ∃ r' b', (.store r', .drew b') ∈ F ∧ b' ≠ b ∧ r'.key = some k)

theorem Threatened.mono {F F' : Board κ} {b : BlockId} {r : StoreReq κ} (hsub : F ⊆ F')
    (h : Threatened F b r) : Threatened F' b r := by
  rcases h with h | ⟨k, hk, h | ⟨r', b', hdrew, hne, hk'⟩⟩
  · exact .inl (hsub h)
  · exact .inr ⟨k, hk, .inl (hsub h)⟩
  · exact .inr ⟨k, hk, .inr ⟨r', b', hsub hdrew, hne, hk'⟩⟩

/-- The manager and the board agree. -/
structure Told (m : BlockManager cfg) (F : Board κ) : Prop where
  slots : Striped.Placed cfg.slot m.blocks
  drawn : ∀ c b, (c, .placed b) ∈ F ∨ (c, .keyed b) ∈ F → (c, .drew b) ∈ F
  inserted : ∀ c b, (c, .keyed b) ∈ F → (c, .placed b) ∈ F
  /-- ids grow, and no two stores with different arguments share one -/
  old : ∀ c b, (c, .drew b) ∈ F → b < m.idCounter
  one : ∀ r r' b, (.store r, .drew b) ∈ F → (.store r', .drew b) ∈ F → r' = r
  /-- what is there was stored -/
  resident : ∀ b e, m.block b = some e → ∃ r, (.store r, .placed b) ∈ F ∧ r.entry = e
  bound : ∀ k b, m.bound k = some b → ∃ r, (.store r, .placed b) ∈ F ∧ r.key = some k
  /-- what was stored and pinned is there -/
  kept : ∀ r b, (.store r, .placed b) ∈ F → r.durability = .pinned →
    m.block b = some r.entry ∨ Threatened F b r
  named : ∀ r b k, (.store r, .keyed b) ∈ F → r.durability = .pinned → r.key = some k →
    m.bound k = some b ∨ Threatened F b r

/-- A section that only removes: `gone` says which blocks it may take,
with the bindings that name them. -/
structure Lost (gone : BlockId → Prop) (m m' : BlockManager cfg) : Prop where
  slots : Striped.Placed cfg.slot m'.blocks
  block : ∀ b, m'.block b = m.block b ∨ m'.block b = none ∧ gone b
  bound : ∀ k, m'.bound k = m.bound k ∨ m'.bound k = none ∧ ∀ b, m.bound k = some b → gone b
  idCounter : m'.idCounter = m.idCounter

namespace Lost

variable {m m' : BlockManager cfg}

theorem release (h : Striped.Placed cfg.slot m.blocks) (size : Nat) :
    Lost (fun _ => False) m (m.release size) :=
  ⟨h, fun _ => .inl rfl, fun _ => .inl rfl, rfl⟩

theorem popFrom (h : Striped.Placed cfg.slot m.blocks) (i : Fin cfg.stripeCount) (b : BlockId) :
    Lost (· = b) m (m.popFrom i b).1 := by
  rcases hpop : m.popFrom i b with ⟨m₁, _ | e⟩
  · rcases m.popFrom_cases i b with ⟨_, heq⟩ | ⟨e, _, heq⟩
    · rw [heq] at hpop
      obtain ⟨rfl, -⟩ := Prod.mk.inj hpop
      exact ⟨h, fun _ => .inl rfl, fun _ => .inl rfl, rfl⟩
    · rw [heq] at hpop
      simp at hpop
  · obtain ⟨-, -, hblocks, hkeys, -, hctr⟩ := BlockManager.popFrom_some h hpop
    have hbound : m₁.bound = m.bound := by
      have := bound_popFrom m i b
      rwa [hpop] at this
    refine ⟨by rw [hblocks]; exact h.erase b, fun b' => ?_, fun k => .inl (congrFun hbound k), hctr⟩
    rw [BlockManager.block, hblocks, Striped.get_erase]
    split
    · rename_i heq
      exact .inr ⟨rfl, heq⟩
    · exact .inl rfl

theorem dropKey (h : Striped.Placed cfg.slot m.blocks) (k : κ) (b : BlockId) :
    Lost (· = b) m (m.dropKey k b) := by
  refine ⟨?_, fun b' => .inl ?_, fun k' => ?_, by simp⟩
  · rw [BlockManager.blocks_congr (m := m) (by simp)]
    exact h
  · rw [BlockManager.block_congr (m := m) (by simp)]
  · rw [BlockManager.bound_dropKey]
    split
    · rename_i heq
      refine .inr ⟨rfl, fun b' hb' => ?_⟩
      rw [heq.2] at hb'
      exact (Option.some.inj hb').symm
    · exact .inl rfl

/-- One stripe of `_evict_to_free` takes CACHE blocks only. -/
theorem popped {i : Fin cfg.stripeCount} {vs : List (Victim κ)} (hpop : BlockManager.Popped i m vs m')
    (h : Striped.Placed cfg.slot m.blocks) :
    Lost (fun b => ∃ e, m.block b = some e ∧ e.durability = .cache) m m' := by
  induction hpop with
  | nil m => exact ⟨h, fun _ => .inl rfl, fun _ => .inl rfl, rfl⟩
  | @cons m m₁ m' b e vs hpop hcache _ ih =>
    have hfirst := Lost.popFrom h i b
    rw [hpop] at hfirst
    obtain ⟨-, hb, -⟩ := BlockManager.popFrom_some h hpop
    have hrest := ih hfirst.slots
    have hgone : ∀ b', (∃ e, m₁.block b' = some e ∧ e.durability = .cache) →
        ∃ e, m.block b' = some e ∧ e.durability = .cache := by
      rintro b' ⟨e', he', hc'⟩
      rcases hfirst.block b' with heq | ⟨hnone, -⟩
      · exact ⟨e', heq ▸ he', hc'⟩
      · rw [hnone] at he'
        cases he'
    refine ⟨hrest.slots, fun b' => ?_, fun k => ?_, hrest.idCounter.trans hfirst.idCounter⟩
    · rcases hrest.block b' with heq | ⟨hnone, hg⟩
      · rw [heq]
        rcases hfirst.block b' with heq₁ | ⟨hnone, rfl⟩
        · exact .inl heq₁
        · exact .inr ⟨hnone, e, hb, hcache⟩
      · exact .inr ⟨hnone, hgone b' hg⟩
    · have hk : m₁.bound k = m.bound k := by
        have := congrFun (bound_popFrom m i b) k
        rwa [hpop] at this
      rcases hrest.bound k with heq | ⟨hnone, hg⟩
      · exact .inl (heq.trans hk)
      · exact .inr ⟨hnone, fun b' hb' => hgone b' (hg b' (hk.trans hb'))⟩

end Lost

namespace Told

variable {m m' : BlockManager cfg} {F : Board κ}

theorem init : Told (BlockManager.init cfg) (∅ : Board κ) where
  slots := Striped.placed_empty
  drawn := by simp
  inserted := by simp
  old := by simp
  one := by simp
  resident := by
    intro b e h
    simp [BlockManager.init, BlockManager.block, BlockManager.blocks, Striped.get] at h
  bound := by
    intro k b h
    simp [BlockManager.init, BlockManager.bound, BlockManager.index, Striped.get] at h
  kept := by simp
  named := by simp

theorem one_placed (h : Told m F) {r r' : StoreReq κ} {b : BlockId} (hr : (.store r, .placed b) ∈ F)
    (hr' : (.store r', .placed b) ∈ F) : r' = r :=
  h.one r r' b (h.drawn _ b (.inl hr)) (h.drawn _ b (.inl hr'))

/-- A removal is owed an explanation for the pinned blocks only. -/
theorem lost {gone : BlockId → Prop} (h : Told m F) (hl : Lost gone m m')
    (hgone : ∀ b r, gone b → (.store r, .placed b) ∈ F → r.durability = .pinned → Threatened F b r) :
    Told m' F where
  slots := hl.slots
  drawn := h.drawn
  inserted := h.inserted
  old := by
    rw [hl.idCounter]
    exact h.old
  one := h.one
  resident := by
    intro b e he
    rcases hl.block b with heq | ⟨hnone, -⟩
    · exact h.resident b e (heq ▸ he)
    · rw [hnone] at he
      cases he
  bound := by
    intro k b hb
    rcases hl.bound k with heq | ⟨hnone, -⟩
    · exact h.bound k b (heq ▸ hb)
    · rw [hnone] at hb
      cases hb
  kept := by
    intro r b hr hpin
    rcases h.kept r b hr hpin with hb | ht
    · rcases hl.block b with heq | ⟨-, hg⟩
      · exact .inl (heq.trans hb)
      · exact .inr (hgone b r hg hr hpin)
    · exact .inr ht
  named := by
    intro r b k hr hpin hkey
    rcases h.named r b k hr hpin hkey with hb | ht
    · rcases hl.bound k with heq | ⟨-, hg⟩
      · exact .inl (heq.trans hb)
      · exact .inr (hgone b r (hg b hb) (h.inserted _ b hr) hpin)
    · exact .inr ht

theorem release (h : Told m F) (size : Nat) : Told (m.release size) F :=
  h.lost (Lost.release h.slots size) (fun _ _ hg => hg.elim)

/-- A stripe's eviction takes no pinned block. -/
theorem evictStripe (h : Told m F) (sh : Shuffles cfg.stripeCount) (needed : Nat)
    (i : Fin cfg.stripeCount) (freed : Nat) : Told (m.evictStripe sh needed i freed).1 F := by
  refine h.lost (Lost.popped (m.evictStripe_popped sh needed i freed).1 h.slots) ?_
  rintro b r ⟨e, he, hcache⟩ hr hpin
  obtain ⟨r', hr', rfl⟩ := h.resident b e he
  rw [h.one_placed hr hr'] at hcache
  exact absurd (hpin.symm.trans hcache) (by decide)

/-- Calling adds threats, and nothing else that counts. -/
theorem called (h : Told m F) (c : Call κ) : Told m (F.add c [.called]) where
  slots := h.slots
  drawn := by simpa using h.drawn
  inserted := by simpa using h.inserted
  old := by simpa using h.old
  one := by simpa using h.one
  resident := by simpa using h.resident
  bound := by simpa using h.bound
  kept := by
    intro r b hr hpin
    exact (h.kept r b (by simpa using hr) hpin).imp_right (.mono (subset_add F c _))
  named := by
    intro r b k hr hpin hkey
    exact (h.named r b k (by simpa using hr) hpin hkey).imp_right (.mono (subset_add F c _))

/-- A granted `_reserve`, with the id drawn right after it. -/
theorem draw {size : Nat} (h : Told m F) (hres : m.reserve size = (m', true)) (r : StoreReq κ) :
    Told m'.nextId (F.add (.store r) [.drew m'.idCounter]) := by
  rcases m.reserve_cases size with ⟨heq, _⟩ | ⟨m₁, heq, _, hm₁⟩
  · rw [heq] at hres
    simp at hres
  rw [heq] at hres
  simp only [Prod.mk.injEq, and_true] at hres
  subst hres hm₁
  have hsub := subset_add F (.store r) [.drew m.idCounter]
  refine ⟨h.slots, ?_, ?_, ?_, ?_, ?_, ?_, ?_, ?_⟩
  · intro c b hb
    exact hsub (h.drawn c b (by simpa using hb))
  · intro c b hb
    exact hsub (h.inserted c b (by simpa using hb))
  · intro c b hb
    have hnext : m.idCounter < m.idCounter + 1 := Int.lt_succ _
    rcases hb with hb | ⟨-, hb⟩
    · exact lt_trans (h.old c b hb) hnext
    · simp only [List.mem_singleton, Mark.drew.injEq] at hb
      exact hb ▸ hnext
  · intro r₁ r₂ b h₁ h₂
    simp only [mem_add, List.mem_singleton, Mark.drew.injEq, Call.store.injEq] at h₁ h₂
    rcases h₁ with h₁ | ⟨rfl, hb₁⟩ <;> rcases h₂ with h₂ | ⟨rfl, hb₂⟩
    · exact h.one r₁ r₂ b h₁ h₂
    · exact absurd (h.old _ b h₁) (hb₂ ▸ lt_irrefl _)
    · exact absurd (h.old _ b h₂) (hb₁ ▸ lt_irrefl _)
    · rfl
  · intro b e he
    obtain ⟨r', hr', he'⟩ := h.resident b e he
    exact ⟨r', hsub hr', he'⟩
  · intro k b hb
    obtain ⟨r', hr', hk'⟩ := h.bound k b hb
    exact ⟨r', hsub hr', hk'⟩
  · intro r' b hr' hpin
    exact (h.kept r' b (by simpa using hr') hpin).imp_right (.mono hsub)
  · intro r' b k hr' hpin hkey
    exact (h.named r' b k (by simpa using hr') hpin hkey).imp_right (.mono hsub)

/-- The block goes into its stripe. -/
theorem insertBlock (h : Told m F) {r : StoreReq κ} {b : BlockId} (hb : (.store r, .drew b) ∈ F) :
    Told (m.insertBlock b r.entry) (F.add (.store r) [.placed b]) := by
  have hsub := subset_add F (.store r) [.placed b]
  have hblock : ∀ b', (m.insertBlock b r.entry).block b'
      = if b' = b then some r.entry else m.block b' := by
    intro b'
    rw [BlockManager.block, BlockManager.blocks_insertBlock, Striped.get_set]
    rfl
  refine ⟨?_, ?_, ?_, ?_, ?_, ?_, ?_, ?_, ?_⟩
  · rw [BlockManager.blocks_insertBlock]
    exact h.slots.set b r.entry
  · intro c b' hb'
    simp only [mem_add, List.mem_singleton, Mark.placed.injEq, reduceCtorEq, and_false, or_false]
      at hb' ⊢
    rcases hb' with (hb' | ⟨rfl, rfl⟩) | hb'
    · exact h.drawn c b' (.inl hb')
    · exact hb
    · exact h.drawn c b' (.inr hb')
  · intro c b' hb'
    exact hsub (h.inserted c b' (by simpa using hb'))
  · intro c b' hb'
    exact h.old c b' (by simpa using hb')
  · intro r₁ r₂ b' h₁ h₂
    exact h.one r₁ r₂ b' (by simpa using h₁) (by simpa using h₂)
  · intro b' e he
    rw [hblock] at he
    split at he
    · rename_i heq
      subst heq
      exact ⟨r, by simp, Option.some.inj he⟩
    · obtain ⟨r', hr', he'⟩ := h.resident b' e he
      exact ⟨r', hsub hr', he'⟩
  · intro k b' hb'
    obtain ⟨r', hr', hk'⟩ := h.bound k b' hb'
    exact ⟨r', hsub hr', hk'⟩
  · intro r' b' hr' hpin
    rw [hblock]
    simp only [mem_add, List.mem_singleton, Mark.placed.injEq, Call.store.injEq] at hr'
    by_cases heq : b' = b
    · subst heq
      have hsame : r' = r := by
        rcases hr' with hr' | ⟨rfl, -⟩
        · exact h.one r r' b' hb (h.drawn _ b' (.inl hr'))
        · rfl
      exact .inl (by rw [if_pos rfl, hsame])
    · rw [if_neg heq]
      have hold : (Call.store r', Mark.placed b') ∈ F := hr'.resolve_right (fun hnew => heq hnew.2)
      exact (h.kept r' b' hold hpin).imp_right (.mono hsub)
  · intro r' b' k hr' hpin hkey
    exact (h.named r' b' k (by simpa using hr') hpin hkey).imp_right (.mono hsub)

/-- The last section of a store: its key is bound, or it has none. -/
theorem keyed (h : Told m F) {r : StoreReq κ} {b : BlockId} (hb : (.store r, .placed b) ∈ F)
    (hs : m'.stripes = m.stripes) (hctr : m'.idCounter = m.idCounter)
    (hbound : ∀ k', m'.bound k' = if r.key = some k' then some b else m.bound k') :
    Told m' (F.add (.store r) [.keyed b]) := by
  have hsub := subset_add F (.store r) [.keyed b]
  have hdrew : (Call.store r, Mark.drew b) ∈ F := h.drawn _ b (.inl hb)
  refine ⟨?_, ?_, ?_, ?_, ?_, ?_, ?_, ?_, ?_⟩
  · rw [BlockManager.blocks_congr hs]
    exact h.slots
  · intro c b' hb'
    simp only [mem_add, List.mem_singleton, Mark.keyed.injEq, reduceCtorEq, and_false, or_false]
      at hb' ⊢
    rcases hb' with hb' | hb' | ⟨rfl, rfl⟩
    · exact h.drawn c b' (.inl hb')
    · exact h.drawn c b' (.inr hb')
    · exact hdrew
  · intro c b' hb'
    simp only [mem_add, List.mem_singleton, Mark.keyed.injEq, reduceCtorEq, and_false, or_false]
      at hb' ⊢
    rcases hb' with hb' | ⟨rfl, rfl⟩
    · exact h.inserted c b' hb'
    · exact hb
  · intro c b' hb'
    rw [hctr]
    exact h.old c b' (by simpa using hb')
  · intro r₁ r₂ b' h₁ h₂
    exact h.one r₁ r₂ b' (by simpa using h₁) (by simpa using h₂)
  · intro b' e he
    rw [BlockManager.block_congr hs] at he
    obtain ⟨r', hr', he'⟩ := h.resident b' e he
    exact ⟨r', hsub hr', he'⟩
  · intro k b' hb'
    rw [hbound] at hb'
    split at hb'
    · rename_i hkey
      cases hb'
      exact ⟨r, hsub hb, hkey⟩
    · obtain ⟨r', hr', hk'⟩ := h.bound k b' hb'
      exact ⟨r', hsub hr', hk'⟩
  · intro r' b' hr' hpin
    rw [BlockManager.block_congr hs]
    exact (h.kept r' b' (by simpa using hr') hpin).imp_right (.mono hsub)
  · intro r' b' k hr' hpin hkey
    rw [hbound]
    simp only [mem_add, List.mem_singleton, Mark.keyed.injEq, Call.store.injEq] at hr'
    rcases hr' with hr' | ⟨rfl, rfl⟩
    · by_cases hsame : r.key = some k
      · rw [if_pos hsame]
        -- two stores under one key: either it is this one, or this one threatens it
        by_cases heq : b = b'
        · exact .inl (congrArg some heq)
        · exact .inr (.inr ⟨k, hkey, .inr ⟨r, b, hsub hdrew, heq, hsame⟩⟩)
      · rw [if_neg hsame]
        exact (h.named r' b' k hr' hpin hkey).imp_right (.mono hsub)
    · exact .inl (if_pos hkey)

end Told

/-! ## §3 What a task knows, and one step -/

/-- Some store has placed `b` under `k`. -/
def StoredUnder (F : Board κ) (k : κ) (b : BlockId) : Prop :=
  ∃ r, (.store r, .placed b) ∈ F ∧ r.key = some k

/-- Block `b` was a CACHE block. -/
def Evictable (F : Board κ) (b : BlockId) : Prop :=
  ∃ r, (.store r, .placed b) ∈ F ∧ r.durability = .cache

/-- Why `free` of `b` runs. -/
def Frees (F : Board κ) (c : Call κ) (b : BlockId) : FreeCaller → Prop
  | .api => c = .free b ∨ ∃ k, c = .freeByKey k ∧ StoredUnder F k b
  | .rebind b' => ∃ r k, c = .store r ∧ r.key = some k ∧ b' ≠ b ∧ StoredUnder F k b

/-- The data `d` is what a store put where the call reads. -/
def Genuine (F : Board κ) (c : Call κ) (d : Bytes) : Prop :=
  ∃ r b, (.store r, .placed b) ∈ F ∧ r.data = d ∧
    (c = .load b ∨ ∃ k, c = .loadByKey k ∧ r.key = some k)

/-- What the locals of a task stand for. -/
def Knows (F : Board κ) (c : Call κ) : Task cfg → Prop
  | .reserve r _ => c = .store r
  | .evict r _ _ _ _ => c = .store r
  | .releaseVictim r _ v vs _ _ => c = .store r ∧ ∀ w ∈ v :: vs, Evictable F w.bid
  | .dropVictimKey r _ _ bid vs _ _ => c = .store r ∧ Evictable F bid ∧ ∀ w ∈ vs, Evictable F w.bid
  | .retry r _ => c = .store r
  | .insert _ r => c = .store r
  | .bind _ k => ∃ r, c = .store r ∧ r.key = some k
  | .pop b _ caller => Frees F c b caller
  | .release b _ _ _ caller => Frees F c b caller
  | .dropKey b _ caller => Frees F c b caller
  | .load b => c = .load b ∨ ∃ k, c = .loadByKey k ∧ StoredUnder F k b
  | .loadKey k => c = .loadByKey k
  | .freeKey k => c = .freeByKey k
  | .done (.loaded (some d)) => Genuine F c d
  | .done _ => True

section Mono

variable {F F' : Board κ} {c : Call κ} {b : BlockId} (hsub : F ⊆ F')
include hsub

theorem StoredUnder.mono {k : κ} (h : StoredUnder F k b) : StoredUnder F' k b := by
  obtain ⟨r, hr, hk⟩ := h
  exact ⟨r, hsub hr, hk⟩

theorem Evictable.mono (h : Evictable F b) : Evictable F' b := by
  obtain ⟨r, hr, hc⟩ := h
  exact ⟨r, hsub hr, hc⟩

theorem Frees.mono {caller : FreeCaller} (h : Frees F c b caller) : Frees F' c b caller := by
  cases caller with
  | api => exact h.imp_right (fun ⟨k, hc, hst⟩ => ⟨k, hc, hst.mono hsub⟩)
  | rebind b' =>
    obtain ⟨r, k, hc, hk, hne, hst⟩ := h
    exact ⟨r, k, hc, hk, hne, hst.mono hsub⟩

theorem Genuine.mono {d : Bytes} (h : Genuine F c d) : Genuine F' c d := by
  obtain ⟨r, b, hr, hd, hc⟩ := h
  exact ⟨r, b, hsub hr, hd, hc⟩

/-- More marks of other calls take no knowledge away. -/
theorem Knows.mono {t : Task cfg} (h : Knows F c t) : Knows F' c t := by
  cases t with
  | releaseVictim r sh v vs todo freed => exact ⟨h.1, fun w hw => (h.2 w hw).mono hsub⟩
  | dropVictimKey r sh k bid vs todo freed =>
    exact ⟨h.1, h.2.1.mono hsub, fun w hw => (h.2.2 w hw).mono hsub⟩
  | pop b drop caller => exact Frees.mono hsub h
  | release b size key drop caller => exact Frees.mono hsub h
  | dropKey b k caller => exact Frees.mono hsub h
  | load b => exact h.imp_right (fun ⟨k, hc, hst⟩ => ⟨k, hc, hst.mono hsub⟩)
  | done o =>
    cases o with
    | loaded data =>
      cases data with
      | some d => exact Genuine.mono hsub h
      | none => trivial
    | _ => trivial
  | _ => exact h

end Mono

section Step

variable {m m' : BlockManager cfg} {F : Board κ} {c : Call κ} {t t' : Task cfg}

theorem knows_nextStripe {r : StoreReq κ} (hc : c = .store r) (sh : Shuffles cfg.stripeCount)
    (todo : List (Fin cfg.stripeCount)) (freed : Nat) :
    Knows F c (Task.nextStripe r sh todo freed) := by
  cases todo <;> exact hc

theorem knows_nextVictim {r : StoreReq κ} (hc : c = .store r) (m : BlockManager cfg)
    (sh : Shuffles cfg.stripeCount) {vs : List (Victim κ)} (hvs : ∀ v ∈ vs, Evictable F v.bid)
    (todo : List (Fin cfg.stripeCount)) (freed : Nat) :
    Knows F c (Task.nextVictim m r sh vs todo freed) := by
  cases vs with
  | nil =>
    simp only [Task.nextVictim]
    split
    · exact hc
    · exact knows_nextStripe hc sh todo freed
  | cons v rest => exact ⟨hc, hvs⟩

theorem knows_outcome (caller : FreeCaller) (ok : Bool) :
    Knows F c (Task.done (caller.outcome ok) : Task cfg) := by
  cases caller <;> trivial

/-- A `free` is a threat to what it frees. -/
theorem Frees.threatened {b : BlockId} {caller : FreeCaller} (h : Frees F c b caller)
    (ht : Told m F) (hmarks : ∀ x ∈ caller.marks, (c, x) ∈ F) {r : StoreReq κ}
    (hr : (.store r, .placed b) ∈ F) : Threatened F b r := by
  cases caller with
  | api =>
    have hcalled : (c, Mark.called) ∈ F := hmarks _ List.mem_cons_self
    rcases h with rfl | ⟨k, rfl, r', hr', hk⟩
    · exact .inl hcalled
    · rw [ht.one_placed hr hr'] at hk
      exact .inr ⟨k, hk, .inl hcalled⟩
  | rebind b' =>
    obtain ⟨rs, k, rfl, hkey, hne, r', hr', hk⟩ := h
    rw [ht.one_placed hr hr'] at hk
    exact .inr ⟨k, hk, .inr ⟨rs, b', hmarks _ (by simp [FreeCaller.marks]), hne, hkey⟩⟩

/-- Dropping a victim's key takes no pinned block's name. -/
theorem Told.dropVictimKey (h : Told m F) {bid : BlockId} (hv : Evictable F bid) (k : κ) :
    Told (m.dropKey k bid) F := by
  refine h.lost (Lost.dropKey h.slots k bid) ?_
  rintro b r rfl hr hpin
  obtain ⟨r', hr', hcache⟩ := hv
  rw [h.one_placed hr hr'] at hcache
  exact absurd (hpin.symm.trans hcache) (by decide)

/-- A step of `c` from `t` to `m'` and `t'`: its new marks, and the board with them. -/
def Advances (F : Board κ) (c : Call κ) (t : Task cfg) (m' : BlockManager cfg) (t' : Task cfg) :
    Prop :=
  ∃ new, t'.marks = t.marks ++ new ∧ Told m' (F.add c new) ∧ Knows (F.add c new) c t'

theorem Advances.quiet (hmarks : t'.marks = t.marks) (h : Told m' F) (hk : Knows F c t') :
    Advances F c t m' t' :=
  ⟨[], by simpa using hmarks, by simpa using h, by simpa using hk⟩

/-- Both `_reserve`s of a store, when granted. -/
theorem Advances.granted {r : StoreReq κ} (h : Told m F) (hc : c = .store r)
    (hmarks : t.marks = [.called]) (hres : m.reserve r.size = (m', true)) :
    Advances F c t m'.nextId (.insert m'.idCounter r) := by
  subst hc
  exact ⟨[.drew m'.idCounter], by rw [hmarks]; rfl, h.draw hres r, rfl⟩

/-- One step of one task, with the marks of all others arbitrary. -/
theorem step_told (hF : tells (c, t) ⊆ F) (h : Told m F) (hk : Knows F c t) :
    Advances F c t (Task.step m t).1 (Task.step m t).2 := by
  have hmarks : ∀ x ∈ t.marks, (c, x) ∈ F := fun x hx => hF ⟨rfl, hx⟩
  cases t with
  | reserve r sh =>
    rcases hres : m.reserve r.size with ⟨m', _ | _⟩
    · simp only [Task.step, hres]
      rw [Task.reserve_refused hres]
      exact .quiet (Task.marks_nextStripe r sh _ _) h (knows_nextStripe hk sh _ _)
    · simp only [Task.step, hres]
      exact .granted h hk rfl hres
  | evict r sh i todo freed =>
    obtain ⟨-, hvs⟩ := (m.evictStripe_popped sh r.size i freed).1.victims h.slots
    refine .quiet (Task.marks_nextVictim _ r sh _ todo _) (h.evictStripe sh r.size i freed)
      (knows_nextVictim hk _ sh (fun v hv => ?_) todo _)
    obtain ⟨e, he, hcache, -⟩ := hvs v hv
    obtain ⟨r', hr', rfl⟩ := h.resident v.bid e he
    exact ⟨r', hr', hcache⟩
  | releaseVictim r sh v vs todo freed =>
    obtain ⟨hc, hvs⟩ := hk
    have hrest : ∀ w ∈ vs, Evictable F w.bid := fun w hw => hvs w (List.mem_cons_of_mem v hw)
    cases hkey : v.key with
    | none =>
      simp only [Task.step, hkey]
      exact .quiet (Task.marks_nextVictim _ r sh vs todo freed) (h.release v.size)
        (knows_nextVictim hc _ sh hrest todo freed)
    | some k =>
      simp only [Task.step, hkey]
      exact .quiet rfl (h.release v.size) ⟨hc, hvs v List.mem_cons_self, hrest⟩
  | dropVictimKey r sh k bid vs todo freed =>
    obtain ⟨hc, hbid, hvs⟩ := hk
    exact .quiet (Task.marks_nextVictim _ r sh vs todo freed) (h.dropVictimKey hbid k)
      (knows_nextVictim hc _ sh hvs todo freed)
  | retry r freed =>
    rcases hres : m.reserve r.size with ⟨m', _ | _⟩
    · simp only [Task.step, hres]
      rw [Task.reserve_refused hres]
      exact .quiet rfl h trivial
    · simp only [Task.step, hres]
      exact .granted h hk rfl hres
  | insert b r =>
    obtain rfl : c = .store r := hk
    have hplaced := h.insertBlock (hmarks (.drew b) (by simp [Task.marks]))
    cases hkey : r.key with
    | none =>
      -- no key to bind: the store is done, and both marks come at once
      have hboth : Told (m.insertBlock b r.entry)
          ((F.add (.store r) [.placed b]).add (.store r) [.keyed b]) :=
        hplaced.keyed (by simp) rfl rfl (by simp [hkey])
      simp only [Task.step, hkey]
      refine ⟨[.placed b, .keyed b], rfl, ?_, trivial⟩
      have hboard : (F.add (.store r) [.placed b]).add (.store r) [.keyed b]
          = F.add (.store r) [.placed b, .keyed b] := by
        ext ⟨c', x⟩
        simp only [mem_add, List.mem_cons, List.not_mem_nil, or_false]
        tauto
      rwa [hboard] at hboth
    | some k =>
      simp only [Task.step, hkey]
      exact ⟨[.placed b], rfl, hplaced, r, rfl, hkey⟩
  | bind b k =>
    obtain ⟨r, rfl, hkey⟩ := hk
    have hplaced : (Call.store r, Mark.placed b) ∈ F := hmarks _ (by simp [Task.marks])
    have hkeyed : Told (m.bindKey k b).1 (F.add (.store r) [.keyed b]) := by
      refine h.keyed hplaced rfl rfl (fun k' => ?_)
      rw [BlockManager.bound, BlockManager.index_bindKey, Striped.get_set, hkey]
      simp only [Option.some.injEq, eq_comm]
      rfl
    rcases hbind : m.bindKey k b with ⟨m', _ | previous⟩
    · rw [hbind] at hkeyed
      simp only [Task.step, hbind]
      exact ⟨[.keyed b], rfl, hkeyed, trivial⟩
    · rw [hbind] at hkeyed
      simp only [Task.step, hbind]
      refine ⟨[.keyed b], by split <;> rfl, hkeyed, ?_⟩
      split
      · rename_i hne
        have hprev : m.bound k = some previous := (congrArg Prod.snd hbind)
        exact ⟨r, k, rfl, hkey, fun heq => hne heq.symm,
          StoredUnder.mono (subset_add F _ _) (h.bound k previous hprev)⟩
      · trivial
  | pop b drop caller =>
    have hpopped := h.lost (Lost.popFrom h.slots (cfg.slot b) b) (by
      rintro b' r rfl hr -
      exact Frees.threatened hk h hmarks hr)
    rcases hpop : m.popFrom (cfg.slot b) b with ⟨m', _ | e⟩
    · rw [hpop] at hpopped
      simp only [Task.step, hpop]
      exact .quiet (Task.marks_outcome caller false) hpopped (knows_outcome caller false)
    · rw [hpop] at hpopped
      simp only [Task.step, hpop]
      exact .quiet rfl hpopped hk
  | release b size key drop caller =>
    have hfin : Advances F c (.release b size key drop caller) (m.release size)
        (.done (caller.outcome true)) :=
      .quiet (Task.marks_outcome caller true) (h.release size) (knows_outcome caller true)
    cases drop with
    | false => exact hfin
    | true =>
      cases key with
      | none => exact hfin
      | some k => exact .quiet rfl (h.release size) hk
  | dropKey b k caller =>
    refine .quiet (Task.marks_outcome caller true) (h.lost (Lost.dropKey h.slots k b) ?_)
      (knows_outcome caller true)
    rintro b' r rfl hr -
    exact Frees.threatened hk h hmarks hr
  | load b =>
    cases hd : m.load b with
    | none =>
      simp only [Task.step, hd]
      exact .quiet rfl h trivial
    | some d =>
      simp only [Task.step, hd]
      refine .quiet rfl h ?_
      obtain ⟨e, he, rfl⟩ : ∃ e, m.block b = some e ∧ e.data = d := by
        simpa [BlockManager.load] using hd
      obtain ⟨r, hr, rfl⟩ := h.resident b e he
      rcases hk with rfl | ⟨k, rfl, r', hr', hkey⟩
      · exact ⟨r, b, hr, rfl, .inl rfl⟩
      · rw [h.one_placed hr hr'] at hkey
        exact ⟨r, b, hr, rfl, .inr ⟨k, rfl, hkey⟩⟩
  | loadKey k =>
    cases hb : m.bound k with
    | none =>
      simp only [Task.step, hb]
      exact .quiet rfl h trivial
    | some b =>
      simp only [Task.step, hb]
      exact .quiet rfl h (.inr ⟨k, hk, h.bound k b hb⟩)
  | freeKey k =>
    cases hb : m.bound k with
    | none =>
      simp only [Task.step, hb]
      exact .quiet rfl h trivial
    | some b =>
      simp only [Task.step, hb]
      exact .quiet rfl h (.inr ⟨k, hk, h.bound k b hb⟩)
  | done o => exact .quiet rfl h hk

end Step

/-! ## §4 What overlapping calls see -/

/-- A block manager with the calls made on it, finished or in flight. -/
abbrev Traced (cfg : Settings κ) := Pool (BlockManager cfg) (Call κ × Task cfg)

/-- Every state some interleaving of calls reaches, with the calls. -/
def Traced.Reachable (p : Traced cfg) : Prop :=
  Pool.Reachable (BlockManager.init cfg) (fun t => ∃ sh, t.2 = Task.ofCall sh t.1)
    (fun m t => ((Task.step m t.2).1, (t.1, (Task.step m t.2).2))) p

theorem marks_ofCall (sh : Shuffles cfg.stripeCount) (c : Call κ) :
    (Task.ofCall sh c).marks = [.called] := by
  cases c with
  | store r =>
    show (Task.store r sh).marks = _
    unfold Task.store
    split <;> rfl
  | _ => rfl

theorem knows_ofCall (F : Board κ) (sh : Shuffles cfg.stripeCount) (c : Call κ) :
    Knows F c (Task.ofCall sh c) := by
  cases c with
  | store r =>
    show Knows F _ (Task.store r sh)
    unfold Task.store
    split
    · trivial
    · rfl
  | load b => exact .inl rfl
  | loadByKey k => rfl
  | free b => exact .inl rfl
  | freeByKey k => rfl

namespace Traced.Reachable

variable {p : Traced cfg}

/-- In every reachable state the manager agrees with the marks of the
calls, and every task with its call. -/
theorem told (hp : p.Reachable) :
    Told p.shared (p.told tells) ∧ ∀ t ∈ p.tasks, Knows (p.told tells) t.1 t.2 := by
  refine Pool.Reachable.board hp tells Told (fun F t => Knows F t.1 t.2)
    (fun F F' t hsub h => Knows.mono hsub h) Told.init ?_ ?_
  · rintro m F ⟨c, t⟩ ⟨sh, ht⟩ h
    obtain rfl : t = Task.ofCall sh c := ht
    have hboard : F ∪ tells (c, (Task.ofCall sh c : Task cfg)) = Board.add F c [.called] := by
      simp only [tells, marks_ofCall]
      rfl
    rw [hboard]
    exact ⟨h.called c, knows_ofCall _ sh c⟩
  · rintro m F ⟨c, t⟩ hF h hk
    obtain ⟨new, hmarks, htold, hknows⟩ := step_told hF h hk
    have hboard : F ∪ tells (c, (Task.step m t).2) = Board.add F c new := union_tells hF hmarks
    refine ⟨?_, by rw [hboard]; exact ⟨htold, hknows⟩⟩
    rintro ⟨c', x⟩ ⟨rfl, hx⟩
    refine ⟨rfl, ?_⟩
    rw [hmarks, List.mem_append]
    exact .inl hx

/-- A call may run from start to end with nobody in between. -/
theorem call (hp : p.Reachable) (sh : Shuffles cfg.stripeCount) (c : Call κ) :
    Traced.Reachable ⟨(p.shared.exec sh c).1, p.tasks ++ [(c, .done (p.shared.exec sh c).2)]⟩ := by
  obtain ⟨m, ts⟩ := p
  have hspawn : Traced.Reachable (⟨m, ts ++ [(c, Task.ofCall sh c)]⟩ : Traced cfg) :=
    hp.tail (.spawn m ts (c, Task.ofCall sh c) ⟨sh, rfl⟩)
  refine Pool.Reachable.alone hspawn ?_
  refine Relation.ReflTransGen.lift (fun x : BlockManager cfg × Task cfg => (x.1, (c, x.2))) ?_ _ _
    (Task.alone_exec m sh c)
  rintro x _ rfl
  rfl

theorem mem_told {c : Call κ} {x : Mark} :
    (c, x) ∈ p.told tells ↔ ∃ t, (c, t) ∈ p.tasks ∧ x ∈ t.marks := by
  constructor
  · rintro ⟨⟨c', t⟩, ht, rfl, hx⟩
    exact ⟨t, ht, hx⟩
  · rintro ⟨t, ht, hx⟩
    exact ⟨(c, t), ht, rfl, hx⟩

end Traced.Reachable

/-- Whatever calls overlap, a `load` or `load_by_key` that returns bytes
returns those of a `store` call: the one that drew the id, or one with
the key. No other `store` has drawn that id. -/
theorem concurrent_reads_genuine {p : Traced cfg} (hp : p.Reachable) {c : Call κ} {d : Bytes}
    (h : (c, Task.done (.loaded (some d))) ∈ p.tasks) :
    ∃ r t b, (Call.store r, t) ∈ p.tasks ∧ Mark.placed b ∈ t.marks ∧ r.data = d ∧
      (c = .load b ∨ ∃ k, c = .loadByKey k ∧ r.key = some k) ∧
      ∀ r' t', (Call.store r', t') ∈ p.tasks → Mark.drew b ∈ t'.marks → r' = r := by
  obtain ⟨htold, hknows⟩ := hp.told
  obtain ⟨r, b, hr, hd, hc⟩ := hknows _ h
  obtain ⟨t, ht, hx⟩ := Traced.Reachable.mem_told.mp hr
  refine ⟨r, t, b, ht, hx, hd, hc, fun r' t' ht' hdrew => ?_⟩
  exact htold.one r r' b (htold.drawn _ b (.inl hr))
    (Traced.Reachable.mem_told.mpr ⟨t', ht', hdrew⟩)

/-- A store under key 7 and a read of that key after it. -/
theorem reachable_storeLoad :
    ∃ p : Traced (⟨8, 2, Nat.two_pos, Int.ofNat⟩ : Settings Nat), p.Reachable ∧
      p.tasks = [(Call.store ⟨[1, 2], .pinned, some 7⟩, Task.done (.stored 1)),
        (Call.loadByKey 7, Task.done (.loaded (some [1, 2])))] := by
  have hinit : Traced.Reachable (⟨BlockManager.init _, []⟩ :
      Traced (⟨8, 2, Nat.two_pos, Int.ofNat⟩ : Settings Nat)) := .refl
  exact ⟨_, (hinit.call (Shuffles.identity 2) (.store ⟨[1, 2], .pinned, some 7⟩)).call
    (Shuffles.identity 2) (.loadByKey 7), rfl⟩

theorem concurrent_reads_genuine_stored :
    ∃ p : Traced (⟨8, 2, Nat.two_pos, Int.ofNat⟩ : Settings Nat), p.Reachable ∧
      ∃ r t b, (Call.store r, t) ∈ p.tasks ∧ Mark.placed b ∈ t.marks ∧ r.data = [1, 2] ∧
        (Call.loadByKey 7 = .load b ∨ ∃ k, Call.loadByKey 7 = .loadByKey k ∧ r.key = some k) ∧
        ∀ r' t', (Call.store r', t') ∈ p.tasks → Mark.drew b ∈ t'.marks → r' = r := by
  obtain ⟨p, hp, htasks⟩ := reachable_storeLoad
  exact ⟨p, hp, concurrent_reads_genuine hp (by simp [htasks])⟩

/-- A PINNED block whose `store` has returned is read back by its id and
its key in every later state, under any interleaving, for as long as
nobody has called `free` on the id or `free_by_key` on the key, and no
other `store` under the key has drawn an id. -/
theorem pinned_survives {p : Traced cfg} (hp : p.Reachable) {r : StoreReq κ} {b : BlockId}
    (hstored : (Call.store r, Task.done (.stored b)) ∈ p.tasks) (hpin : r.durability = .pinned)
    (hfree : ∀ t, (Call.free b, t) ∉ p.tasks)
    (hkey : ∀ k, r.key = some k → (∀ t, (Call.freeByKey k, t) ∉ p.tasks) ∧
      ∀ r' t b', (Call.store r', t) ∈ p.tasks → r'.key = some k → Mark.drew b' ∈ t.marks → b' = b) :
    p.shared.load b = some r.data ∧ ∀ k, r.key = some k → p.shared.loadByKey k = some r.data := by
  obtain ⟨htold, -⟩ := hp.told
  have hmark : ∀ x ∈ (Task.done (.stored b) : Task cfg).marks, (Call.store r, x) ∈ p.told tells :=
    fun x hx => Traced.Reachable.mem_told.mpr ⟨_, hstored, hx⟩
  have hsafe : ¬ Threatened (p.told tells) b r := by
    rintro (hf | ⟨k, hk, hf | ⟨r', b', hdrew, hne, hk'⟩⟩)
    · obtain ⟨t, ht, -⟩ := Traced.Reachable.mem_told.mp hf
      exact hfree t ht
    · obtain ⟨t, ht, -⟩ := Traced.Reachable.mem_told.mp hf
      exact (hkey k hk).1 t ht
    · obtain ⟨t, ht, hx⟩ := Traced.Reachable.mem_told.mp hdrew
      exact hne ((hkey k hk).2 r' t b' ht hk' hx)
  have hblock : p.shared.block b = some r.entry :=
    (htold.kept r b (hmark _ (by simp [Task.marks])) hpin).resolve_right hsafe
  have hload : p.shared.load b = some r.data := by simp [BlockManager.load, hblock, StoreReq.entry]
  refine ⟨hload, fun k hk => ?_⟩
  have hbound : p.shared.bound k = some b :=
    (htold.named r b k (hmark _ (by simp [Task.marks])) hpin hk).resolve_right hsafe
  simp [BlockManager.loadByKey, hbound, hload]

theorem pinned_survives_stored :
    ∃ p : Traced (⟨8, 2, Nat.two_pos, Int.ofNat⟩ : Settings Nat), p.Reachable ∧
      p.shared.load 1 = some [1, 2] ∧
      ∀ k, (⟨[1, 2], .pinned, some 7⟩ : StoreReq Nat).key = some k →
        p.shared.loadByKey k = some [1, 2] := by
  obtain ⟨p, hp, htasks⟩ := reachable_storeLoad
  refine ⟨p, hp, pinned_survives hp (r := ⟨[1, 2], .pinned, some 7⟩) (by simp [htasks]) rfl
    (by simp [htasks]) (fun k _ => ⟨by simp [htasks], ?_⟩)⟩
  intro r' t b' ht _ hb'
  rw [htasks] at ht
  simp only [List.mem_cons, Prod.mk.injEq, Call.store.injEq, reduceCtorEq, false_and, or_false,
    List.not_mem_nil] at ht
  obtain ⟨-, rfl⟩ := ht
  simpa [Task.marks] using hb'

/-! ## §5 Every call returns -/

/-- What a call is for; the outcomes are of the same kinds. -/
inductive Kind where
  | store
  | load
  | free
  deriving DecidableEq

def Call.kind : Call κ → Kind
  | .store _ => .store
  | .load _ => .load
  | .loadByKey _ => .load
  | .free _ => .free
  | .freeByKey _ => .free

def Outcome.kind : Outcome → Kind
  | .stored _ => .store
  | .failed _ => .store
  | .loaded _ => .load
  | .freed _ => .free

def FreeCaller.kind : FreeCaller → Kind
  | .api => .free
  | .rebind _ => .store

@[simp] theorem kind_outcome (caller : FreeCaller) (ok : Bool) :
    (caller.outcome ok).kind = caller.kind := by
  cases caller <;> rfl

namespace Task

def kind : Task cfg → Kind
  | .pop _ _ caller => caller.kind
  | .release _ _ _ _ caller => caller.kind
  | .dropKey _ _ caller => caller.kind
  | .load _ => .load
  | .loadKey _ => .load
  | .freeKey _ => .free
  | .done o => o.kind
  | _ => .store

/-- How much a task has before it: the stripes it may still visit, then
the sections up to the next stripe. -/
def rank : Task cfg → Nat × Nat
  | .reserve _ sh => (sh.order.length + 3, 0)
  | .evict _ _ _ todo _ => (todo.length + 2, 0)
  | .releaseVictim _ _ _ vs todo _ => (todo.length + 1, 2 * vs.length + 3)
  | .dropVictimKey _ _ _ _ vs todo _ => (todo.length + 1, 2 * vs.length + 2)
  | .retry _ _ => (1, 0)
  | .insert _ _ => (0, 6)
  | .bind _ _ => (0, 5)
  | .freeKey _ => (0, 5)
  | .pop _ _ _ => (0, 4)
  | .release _ _ _ _ _ => (0, 3)
  | .dropKey _ _ _ => (0, 2)
  | .loadKey _ => (0, 2)
  | .load _ => (0, 1)
  | .done _ => (0, 0)

/-- The task after `n` of its own steps, the `i`-th of which finds the
manager `env i`: between them the other calls may do anything. -/
def runIn (env : Nat → BlockManager cfg) : Nat → Task cfg → Task cfg
  | 0, t => t
  | n + 1, t => runIn (fun i => env (i + 1)) n (step (env 0) t).2

theorem kind_nextStripe (r : StoreReq κ) (sh : Shuffles cfg.stripeCount)
    (todo : List (Fin cfg.stripeCount)) (freed : Nat) :
    (nextStripe r sh todo freed).kind = .store := by
  cases todo <;> rfl

theorem kind_nextVictim (m : BlockManager cfg) (r : StoreReq κ) (sh : Shuffles cfg.stripeCount)
    (vs : List (Victim κ)) (todo : List (Fin cfg.stripeCount)) (freed : Nat) :
    (nextVictim m r sh vs todo freed).kind = .store := by
  cases vs with
  | nil =>
    simp only [nextVictim]
    split
    · rfl
    · exact kind_nextStripe r sh todo freed
  | cons v rest => rfl

/-- The order on ranks: by stripes, then by sections. -/
abbrev Below : Nat × Nat → Nat × Nat → Prop := Prod.Lex (· < ·) (· < ·)

theorem rank_nextStripe (r : StoreReq κ) (sh : Shuffles cfg.stripeCount)
    (todo : List (Fin cfg.stripeCount)) (freed : Nat) :
    (nextStripe r sh todo freed).rank = (todo.length + 1, 0) := by
  cases todo <;> rfl

theorem rank_nextVictim (m : BlockManager cfg) (r : StoreReq κ) (sh : Shuffles cfg.stripeCount)
    (vs : List (Victim κ)) (todo : List (Fin cfg.stripeCount)) (freed : Nat) :
    (nextVictim m r sh vs todo freed).rank.1 ≤ todo.length + 1 ∧
      ((nextVictim m r sh vs todo freed).rank.1 = todo.length + 1 →
        (nextVictim m r sh vs todo freed).rank.2 ≤ 2 * vs.length + 1) := by
  cases vs with
  | nil =>
    simp only [nextVictim]
    split
    · exact ⟨by simp [rank], fun _ => Nat.zero_le _⟩
    · rw [rank_nextStripe]
      exact ⟨Nat.le_refl _, fun _ => Nat.zero_le _⟩
  | cons v rest => exact ⟨Nat.le_refl _, fun _ => by simp [nextVictim, rank]; omega⟩

theorem below_of_le {x y : Nat × Nat} (h : x.1 ≤ y.1) (h' : x.1 = y.1 → x.2 < y.2) : Below x y := by
  rcases Nat.lt_or_eq_of_le h with hlt | heq
  · exact Prod.lex_iff.mpr (.inl hlt)
  · exact Prod.lex_iff.mpr (.inr ⟨heq, h' heq⟩)

/-- Every step of a call that has not returned brings it nearer to its
end, and keeps what it is for. -/
theorem step_nearer (m : BlockManager cfg) (t : Task cfg) (ht : ∀ o, t ≠ .done o) :
    Below (step m t).2.rank t.rank ∧ (step m t).2.kind = t.kind := by
  cases t with
  | reserve r sh =>
    rcases hres : m.reserve r.size with ⟨m', _ | _⟩
    · simp only [step, hres]
      exact ⟨below_of_le (by rw [rank_nextStripe]; simp [rank]) (by rw [rank_nextStripe]; simp [rank]),
        kind_nextStripe r sh _ _⟩
    · simp only [step, hres]
      exact ⟨below_of_le (by simp [rank]) (by simp [rank]), rfl⟩
  | evict r sh i todo freed =>
    obtain ⟨hle, -⟩ := rank_nextVictim (m.evictStripe sh r.size i freed).1 r sh
      (m.evictStripe sh r.size i freed).2.2 todo (m.evictStripe sh r.size i freed).2.1
    have hlt : todo.length + 1 < todo.length + 2 := Nat.lt_succ_self _
    exact ⟨below_of_le (hle.trans (Nat.le_of_lt hlt)) (fun heq => absurd (heq ▸ hle) (by simp [rank])),
      kind_nextVictim _ r sh _ todo _⟩
  | releaseVictim r sh v vs todo freed =>
    cases hk : v.key with
    | none =>
      simp only [step, hk]
      obtain ⟨hle, hsec⟩ := rank_nextVictim (m.release v.size) r sh vs todo freed
      exact ⟨below_of_le hle (fun heq => (hsec heq).trans_lt (by simp [rank])),
        kind_nextVictim _ r sh vs todo freed⟩
    | some k =>
      simp only [step, hk]
      exact ⟨below_of_le (by simp [rank]) (by simp [rank]), rfl⟩
  | dropVictimKey r sh k bid vs todo freed =>
    obtain ⟨hle, hsec⟩ := rank_nextVictim (m.dropKey k bid) r sh vs todo freed
    exact ⟨below_of_le hle (fun heq => (hsec heq).trans_lt (by simp [rank])),
      kind_nextVictim _ r sh vs todo freed⟩
  | retry r freed =>
    rcases hres : m.reserve r.size with ⟨m', _ | _⟩ <;> simp only [step, hres] <;>
      exact ⟨below_of_le (by simp [rank]) (by simp [rank]), rfl⟩
  | insert b r =>
    cases hk : r.key <;> simp only [step, hk] <;>
      exact ⟨below_of_le (by simp [rank]) (by simp [rank]), rfl⟩
  | bind b k =>
    rcases hbind : m.bindKey k b with ⟨m', _ | previous⟩
    · simp only [step, hbind]
      exact ⟨below_of_le (by simp [rank]) (by simp [rank]), rfl⟩
    · simp only [step, hbind]
      split <;> exact ⟨below_of_le (by simp [rank]) (by simp [rank]), rfl⟩
  | pop b drop caller =>
    rcases hpop : m.popFrom (cfg.slot b) b with ⟨m', _ | e⟩
    · simp only [step, hpop]
      exact ⟨below_of_le (by simp [rank]) (by simp [rank]), kind_outcome caller false⟩
    · simp only [step, hpop]
      exact ⟨below_of_le (by simp [rank]) (by simp [rank]), rfl⟩
  | release b size key drop caller =>
    have hfin : Below (Task.done (caller.outcome true) : Task cfg).rank
        (Task.release b size key drop caller : Task cfg).rank :=
      below_of_le (by simp [rank]) (by simp [rank])
    cases drop with
    | false => exact ⟨hfin, kind_outcome caller true⟩
    | true =>
      cases key with
      | none => exact ⟨hfin, kind_outcome caller true⟩
      | some k => exact ⟨below_of_le (by simp [rank, step]) (by simp [rank, step]), rfl⟩
  | dropKey b k caller =>
    exact ⟨below_of_le (by simp [rank, step]) (by simp [rank, step]), kind_outcome caller true⟩
  | load b => exact ⟨below_of_le (by simp [rank, step]) (by simp [rank, step]), rfl⟩
  | loadKey k =>
    cases hb : m.bound k <;> simp only [step, hb] <;>
      exact ⟨below_of_le (by simp [rank]) (by simp [rank]), rfl⟩
  | freeKey k =>
    cases hb : m.bound k <;> simp only [step, hb] <;>
      exact ⟨below_of_le (by simp [rank]) (by simp [rank]), rfl⟩
  | done o => exact absurd rfl (ht o)

/-- Every suspended call returns, in whatever states its own steps find
the manager. -/
theorem runIn_done (t : Task cfg) (env : Nat → BlockManager cfg) :
    ∃ n o, t.runIn env n = .done o ∧ o.kind = t.kind := by
  have hwf : WellFounded Below := WellFounded.prod_lex Nat.lt_wfRel.wf Nat.lt_wfRel.wf
  induction hx : t.rank using hwf.induction generalizing t env with
  | _ x ih =>
    by_cases ht : ∃ o, t = .done o
    · obtain ⟨o, rfl⟩ := ht
      exact ⟨0, o, rfl, rfl⟩
    · obtain ⟨hbelow, hkind⟩ := step_nearer (env 0) t (fun o heq => ht ⟨o, heq⟩)
      obtain ⟨n, o, hrun, ho⟩ := ih _ (hx ▸ hbelow) (step (env 0) t).2 (fun i => env (i + 1)) rfl
      exact ⟨n + 1, o, hrun, ho.trans hkind⟩

end Task

/-- No call hangs or spins: after finitely many of its own steps it has
returned an outcome of its own kind, whatever the calls in between do to
the manager. -/
theorem every_call_returns (sh : Shuffles cfg.stripeCount) (c : Call κ)
    (env : Nat → BlockManager cfg) :
    ∃ n o, (Task.ofCall sh c).runIn env n = .done o ∧ o.kind = c.kind := by
  have hkind : (Task.ofCall sh c : Task cfg).kind = c.kind := by
    cases c with
    | store r =>
      show (Task.store r sh).kind = _
      unfold Task.store
      split <;> rfl
    | _ => rfl
  obtain ⟨n, o, hrun, ho⟩ := (Task.ofCall sh c).runIn_done env
  exact ⟨n, o, hrun, ho.trans hkind⟩

end Memnode.Blocks
