/-
Memnode.Blocks.Plain — the store `blocks.py` is meant to be.

One table of blocks, one binding for each key, no stripes, no locks, no
byte counters to keep in step. A call that finds no room may first drop
some CACHE blocks; which ones is left open (`evicted`), because the
code draws them at random. Everything else is determined.

`Ok` is the only thing that has to be maintained: a key is bound to a
block exactly when that block is resident and carries the key, and
resident ids are older than the counter. The facts at the end say what
one call can do to one block; the history statements of
`Blocks.Refinement` are inductions over them.
-/
import Memnode.Blocks.Manager

set_option linter.unusedSectionVars false

namespace Memnode.Blocks

/-- A store with a single table. -/
structure Plain (κ : Type) where
  block : BlockId → Option (Entry κ)
  bound : κ → Option BlockId
  next : BlockId
  used : Int
  count : Nat

namespace Plain

variable {κ : Type} [DecidableEq κ]

/-- Take one block out, with its binding. -/
def remove (p : Plain κ) (b : BlockId) : Plain κ :=
  match p.block b with
  | none => p
  | some e =>
      { p with
        block := fun b' => if b' = b then none else p.block b'
        bound := fun k => if e.key = some k ∧ p.bound k = some b then none else p.bound k
        used := p.used - e.size
        count := p.count - 1 }

def removeAll (p : Plain κ) (bs : List BlockId) : Plain κ := bs.foldl remove p

/-- The size of a block, 0 if it is not there. -/
def sizeAt (p : Plain κ) (b : BlockId) : Nat := ((p.block b).map Entry.size).getD 0

/-- The block a store under `key` replaces. -/
def previous (p : Plain κ) (key : Option κ) : Option BlockId := key.bind p.bound

/-- Put a new block in and bind its key. -/
def insert (p : Plain κ) (r : StoreReq κ) : Plain κ :=
  { p with
    block := fun b => if b = p.next then some r.entry else p.block b
    bound := fun k => if r.key = some k then some p.next else p.bound k
    next := p.next + 1
    count := p.count + 1 }

/-- Put a new block in, in place of the one its key is bound to. -/
def place (p : Plain κ) (r : StoreReq κ) : Plain κ :=
  match p.previous r.key with
  | none => p.insert r
  | some b => (p.remove b).insert r

/-- Count `size` more bytes as used. -/
def reserve (p : Plain κ) (size : Nat) : Plain κ := { p with used := p.used + size }

@[simp] theorem block_reserve (p : Plain κ) (size : Nat) : (p.reserve size).block = p.block := rfl

@[simp] theorem next_reserve (p : Plain κ) (size : Nat) : (p.reserve size).next = p.next := rfl

@[simp] theorem previous_reserve (p : Plain κ) (size : Nat) (key : Option κ) :
    (p.reserve size).previous key = p.previous key := rfl

/-- One call, with the blocks it evicts. -/
def exec (max : Nat) (p : Plain κ) (evicted : List BlockId) : Call κ → Plain κ × Outcome
  | .store r =>
      if r.size > Config.maxBlockSize then (p, .failed (.blockTooLarge r.size))
      else
        let p₁ := p.removeAll evicted
        if p₁.used + r.size > max then
          (p₁, .failed (.outOfMemory r.size p₁.used max (evicted.map p.sizeAt).sum))
        else ((p₁.reserve r.size).place r, .stored p₁.next)
  | .load b => (p, .loaded ((p.block b).map Entry.data))
  | .loadByKey k => (p, .loaded ((p.bound k).bind (fun b => (p.block b).map Entry.data)))
  | .free b => (p.remove b, .freed (p.block b).isSome)
  | .freeByKey k =>
      match p.bound k with
      | none => (p, .freed false)
      | some b => (p.remove b, .freed (p.block b).isSome)

/-- A store that does not fit enters eviction. -/
def EntersEviction (max : Nat) (p : Plain κ) (c : Call κ) : Prop :=
  ∃ r, c = .store r ∧ r.size ≤ Config.maxBlockSize ∧ (max : Int) < p.used + r.size

/-- What a call may evict: resident CACHE blocks, each once, and only
when it found no room. -/
structure Legal (max : Nat) (p : Plain κ) (c : Call κ) (evicted : List BlockId) : Prop where
  needed : evicted ≠ [] → p.EntersEviction max c
  nodup : evicted.Nodup
  cache : ∀ b ∈ evicted, ∃ e, p.block b = some e ∧ e.durability = .cache

/-- Bindings and blocks agree, and resident ids are older than the counter. -/
structure Ok (p : Plain κ) : Prop where
  agree : ∀ k b, p.bound k = some b ↔ ∃ e, p.block b = some e ∧ e.key = some k
  fresh : ∀ b e, p.block b = some e → b < p.next

/-! ## Removal -/

theorem remove_of_none {p : Plain κ} {b : BlockId} (h : p.block b = none) : p.remove b = p := by
  simp [remove, h]

theorem block_remove (p : Plain κ) (b b' : BlockId) :
    (p.remove b).block b' = if b' = b then none else p.block b' := by
  unfold remove
  split
  · rename_i h
    split
    · rename_i hb; rw [hb, h]
    · rfl
  · rfl

theorem block_remove_of_ne (p : Plain κ) {b b' : BlockId} (h : b' ≠ b) :
    (p.remove b).block b' = p.block b' := by
  rw [block_remove, if_neg h]

@[simp] theorem next_remove (p : Plain κ) (b : BlockId) : (p.remove b).next = p.next := by
  unfold remove; split <;> rfl

theorem Ok.remove {p : Plain κ} (h : p.Ok) (b : BlockId) : (p.remove b).Ok := by
  cases hb : p.block b with
  | none => rw [remove_of_none hb]; exact h
  | some e =>
    refine ⟨fun k b' => ?_, fun b' e' hb' => ?_⟩
    · have hbound : (p.remove b).bound k
          = if e.key = some k ∧ p.bound k = some b then none else p.bound k := by
        simp [Plain.remove, hb]
      rw [hbound, block_remove]
      constructor
      · intro heq
        split at heq
        · cases heq
        · rename_i hne
          obtain ⟨e', he', hk'⟩ := (h.agree k b').mp heq
          refine ⟨e', ?_, hk'⟩
          rw [if_neg, he']
          -- the removed block's own binding is the one that was dropped
          rintro rfl
          rw [hb] at he'
          cases he'
          exact hne ⟨hk', heq⟩
      · rintro ⟨e', he', hk'⟩
        split at he'
        · cases he'
        · rename_i hne
          have hkb := (h.agree k b').mpr ⟨e', he', hk'⟩
          rw [if_neg, hkb]
          rintro ⟨_, hkb'⟩
          rw [hkb] at hkb'
          cases hkb'
          exact hne rfl
    · rw [block_remove] at hb'
      rw [next_remove]
      split at hb'
      · cases hb'
      · exact h.fresh _ _ hb'

theorem removeAll_cons (p : Plain κ) (b : BlockId) (bs : List BlockId) :
    p.removeAll (b :: bs) = (p.remove b).removeAll bs := rfl

theorem Ok.removeAll {p : Plain κ} (h : p.Ok) (bs : List BlockId) : (p.removeAll bs).Ok := by
  induction bs generalizing p with
  | nil => exact h
  | cons b bs ih => exact ih (h.remove b)

theorem block_removeAll (p : Plain κ) (bs : List BlockId) (b : BlockId) :
    (p.removeAll bs).block b = if b ∈ bs then none else p.block b := by
  induction bs generalizing p with
  | nil => simp [removeAll]
  | cons a bs ih =>
    rw [removeAll_cons, ih, block_remove]
    by_cases h1 : b = a <;> by_cases h2 : b ∈ bs <;> simp [h1, h2]

@[simp] theorem next_removeAll (p : Plain κ) (bs : List BlockId) :
    (p.removeAll bs).next = p.next := by
  induction bs generalizing p with
  | nil => rfl
  | cons b bs ih => rw [removeAll_cons, ih, next_remove]

/-- Every binding is that of the block it names, if the block is there. -/
def Named (p : Plain κ) : Prop :=
  ∀ k b e, p.bound k = some b → p.block b = some e → e.key = some k

/-- The bindings that name a removed block go, and no other. -/
theorem bound_remove {p : Plain κ} (h : p.Named) {b : BlockId} {e : Entry κ}
    (hb : p.block b = some e) (k : κ) :
    (p.remove b).bound k = if p.bound k = some b then none else p.bound k := by
  simp only [remove, hb]
  by_cases hk : p.bound k = some b
  · simp [hk, h k b e hk hb]
  · simp [hk]

theorem Named.remove {p : Plain κ} (h : p.Named) {b : BlockId} {e : Entry κ}
    (hb : p.block b = some e) : (p.remove b).Named := by
  intro k b' e' hk hb'
  rw [bound_remove h hb] at hk
  rw [block_remove] at hb'
  split at hk
  · cases hk
  · split at hb'
    · cases hb'
    · exact h k b' e' hk hb'

/-- The bindings that name removed blocks go, and no other. -/
theorem bound_removeAll {p : Plain κ} (h : p.Named) {bs : List BlockId} (hnd : bs.Nodup)
    (hres : ∀ b ∈ bs, ∃ e, p.block b = some e) (k : κ) :
    (p.removeAll bs).bound k = if ∃ b ∈ bs, p.bound k = some b then none else p.bound k := by
  induction bs generalizing p with
  | nil => simp [removeAll]
  | cons b bs ih =>
    obtain ⟨hb, hnd'⟩ := List.nodup_cons.mp hnd
    obtain ⟨e, he⟩ := hres b List.mem_cons_self
    have hres' : ∀ b' ∈ bs, ∃ e, (p.remove b).block b' = some e := by
      intro b' hb'
      rw [block_remove_of_ne p (ne_of_mem_of_not_mem hb' hb)]
      exact hres b' (List.mem_cons_of_mem _ hb')
    rw [removeAll_cons, ih (h.remove he) hnd' hres', bound_remove h he]
    by_cases hk : p.bound k = some b
    · simp [hk]
    · by_cases hlater : ∃ b' ∈ bs, p.bound k = some b'
      · simp [hk, hlater]
      · simp [hk, hlater]

/-- The bytes that distinct removed blocks held are not used any more. -/
theorem used_removeAll {p : Plain κ} {bs : List BlockId} (hnd : bs.Nodup) :
    (p.removeAll bs).used = p.used - ((bs.map p.sizeAt).sum : Nat) := by
  induction bs generalizing p with
  | nil => simp [removeAll]
  | cons b bs ih =>
    obtain ⟨hb, hnd'⟩ := List.nodup_cons.mp hnd
    have hsizes : bs.map (p.remove b).sizeAt = bs.map p.sizeAt := by
      apply List.map_congr_left
      intro b' hb'
      rw [sizeAt, sizeAt, block_remove_of_ne p (ne_of_mem_of_not_mem hb' hb)]
    have hfirst : (p.remove b).used = p.used - p.sizeAt b := by
      cases he : p.block b with
      | none => simp [remove, sizeAt, he]
      | some e => simp [remove, sizeAt, he]
    rw [removeAll_cons, ih hnd', hsizes, hfirst, List.map_cons, List.sum_cons]
    push_cast
    omega

/-! ## Insertion -/

theorem Ok.insert {p : Plain κ} (h : p.Ok) {r : StoreReq κ}
    (hfree : p.previous r.key = none) : (p.insert r).Ok := by
  have hnew : p.block p.next = none := by
    cases hb : p.block p.next with
    | none => rfl
    | some e => exact absurd (h.fresh _ _ hb) (lt_irrefl _)
  refine ⟨fun k b => ?_, fun b e hb => ?_⟩
  · show (if r.key = some k then some p.next else p.bound k) = some b ↔
      ∃ e, (if b = p.next then some r.entry else p.block b) = some e ∧ e.key = some k
    by_cases hk : r.key = some k
    · have hunbound : p.bound k = none := by simpa [previous, hk] using hfree
      rw [if_pos hk]
      constructor
      · intro heq
        cases heq
        exact ⟨r.entry, by simp, hk⟩
      · rintro ⟨e, he, hke⟩
        split at he
        · rename_i hb; rw [hb]
        · have := (h.agree k b).mpr ⟨e, he, hke⟩
          rw [hunbound] at this
          cases this
    · rw [if_neg hk, h.agree k b]
      constructor
      · rintro ⟨e, he, hke⟩
        refine ⟨e, ?_, hke⟩
        rw [if_neg, he]
        rintro rfl
        rw [hnew] at he
        cases he
      · rintro ⟨e, he, hke⟩
        split at he
        · cases he; exact absurd hke hk
        · exact ⟨e, he, hke⟩
  · show b < p.next + 1
    have hb' : (if b = p.next then some r.entry else p.block b) = some e := hb
    split at hb'
    · rename_i heq; rw [heq]; exact Int.lt_add_one_of_le (le_refl _)
    · exact lt_trans (h.fresh _ _ hb') (Int.lt_add_one_of_le (le_refl _))

/-- After the replaced block is gone, its key is free. -/
theorem previous_remove {p : Plain κ} (h : p.Ok) {key : Option κ} {b : BlockId}
    (hb : p.previous key = some b) : (p.remove b).previous key = none := by
  cases key with
  | none => rfl
  | some k =>
    have hk : p.bound k = some b := hb
    obtain ⟨e, he, hke⟩ := (h.agree k b).mp hk
    show (p.remove b).bound k = none
    simp [Plain.remove, he, hke, hk]

theorem Ok.place {p : Plain κ} (h : p.Ok) (r : StoreReq κ) : (p.place r).Ok := by
  unfold Plain.place
  split
  · rename_i hp; exact h.insert hp
  · rename_i b hp; exact (h.remove b).insert (previous_remove h hp)

theorem Ok.reserve {p : Plain κ} (h : p.Ok) (size : Nat) : (p.reserve size).Ok :=
  ⟨h.agree, h.fresh⟩

theorem block_place (p : Plain κ) (r : StoreReq κ) (b : BlockId) :
    (p.place r).block b
      = if b = p.next then some r.entry
        else if p.previous r.key = some b then none else p.block b := by
  unfold place
  split
  · rename_i hp
    simp [insert, hp]
  · rename_i b' hp
    simp only [insert, next_remove, block_remove, hp, Option.some.injEq, eq_comm (a := b')]

@[simp] theorem next_place (p : Plain κ) (r : StoreReq κ) : (p.place r).next = p.next + 1 := by
  unfold place
  split
  · rfl
  · simp [insert]

theorem bound_place (p : Plain κ) (r : StoreReq κ) {k : κ} (hk : r.key = some k) :
    (p.place r).bound k = some p.next := by
  unfold place
  split <;> simp [insert, hk]

/-! ## One call -/

/-- Why a call may remove block `b` with entry `e`. -/
inductive Removal (max : Nat) (p : Plain κ) (c : Call κ) (o : Outcome) (b : BlockId)
    (e : Entry κ) : Prop where
  | free : c = .free b → Removal max p c o b e
  | freeByKey (k : κ) : c = .freeByKey k → p.bound k = some b → Removal max p c o b e
  | rebind (r : StoreReq κ) (k : κ) (b' : BlockId) : c = .store r → r.key = some k →
      o = .stored b' → e.key = some k → Removal max p c o b e
  | evicted : p.EntersEviction max c → e.durability = .cache → Removal max p c o b e

/-- A resident block stays as it is, or is removed for a listed reason. -/
theorem exec_persists {max : Nat} {p : Plain κ} (h : p.Ok) {c : Call κ} {evicted : List BlockId}
    (hl : p.Legal max c evicted) {b : BlockId} {e : Entry κ} (hb : p.block b = some e) :
    (p.exec max evicted c).1.block b = some e ∨
      ((p.exec max evicted c).1.block b = none ∧
        Removal max p c (p.exec max evicted c).2 b e) := by
  cases c with
  | store r =>
    have hev : b ∈ evicted → Removal max p (.store r) (p.exec max evicted (.store r)).2 b e := by
      intro hmem
      obtain ⟨e', he', hc⟩ := hl.cache b hmem
      rw [hb] at he'
      cases he'
      exact .evicted (hl.needed (List.ne_nil_of_mem hmem)) hc
    by_cases hsize : r.size > Config.maxBlockSize
    · simp [exec, hsize, hb]
    · by_cases hmem : b ∈ evicted
      · refine Or.inr ⟨?_, hev hmem⟩
        have hne : b ≠ p.next := fun heq => lt_irrefl _ (heq ▸ h.fresh b e hb)
        simp only [exec, hsize, if_false]
        split
        · simp [block_removeAll, hmem]
        · simp [block_place, block_removeAll, hmem, hne]
      · have hkeep : (p.removeAll evicted).block b = some e := by
          rw [block_removeAll, if_neg hmem, hb]
        by_cases hroom : (p.removeAll evicted).used + r.size > max
        · simp [exec, hsize, hroom, hkeep]
        · have hne : b ≠ p.next := fun heq => lt_irrefl _ (heq ▸ h.fresh b e hb)
          by_cases hprev : (p.removeAll evicted).previous r.key = some b
          · right
            cases hk : r.key with
            | none => simp [previous, hk] at hprev
            | some k =>
              have hbk : (p.removeAll evicted).bound k = some b := by
                simpa [previous, hk] using hprev
              obtain ⟨e', he', hke⟩ := ((h.removeAll evicted).agree k b).mp hbk
              rw [hkeep] at he'
              cases he'
              refine ⟨?_, .rebind r k p.next rfl hk (by simp [exec, hsize, hroom]) hke⟩
              simp [exec, hsize, hroom, block_place, hne, hprev]
          · left
            simp [exec, hsize, hroom, block_place, hne, hprev, hkeep]
  | load b' => exact Or.inl hb
  | loadByKey k => exact Or.inl hb
  | free b' =>
    simp only [exec, block_remove]
    split
    · rename_i heq
      exact Or.inr ⟨rfl, .free (by rw [heq])⟩
    · exact Or.inl hb
  | freeByKey k =>
    simp only [exec]
    cases hk : p.bound k with
    | none => exact Or.inl hb
    | some b' =>
      simp only [block_remove]
      split
      · rename_i heq
        exact Or.inr ⟨rfl, .freeByKey k rfl (by rw [heq]; exact hk)⟩
      · exact Or.inl hb

/-- Everything a store that returned an id did to the table. -/
theorem exec_stored {max : Nat} {p : Plain κ} {evicted : List BlockId} {r : StoreReq κ}
    {b : BlockId} (ho : (p.exec max evicted (.store r)).2 = .stored b) :
    b = p.next ∧ (p.exec max evicted (.store r)).1.next = p.next + 1 ∧
      (p.exec max evicted (.store r)).1.block b = some r.entry ∧
      ∀ k, r.key = some k → (p.exec max evicted (.store r)).1.bound k = some b := by
  simp only [exec] at ho ⊢
  split at ho
  · cases ho
  · split at ho
    · cases ho
    · rename_i hsize hroom
      simp only [Outcome.stored.injEq, next_removeAll] at ho
      subst ho
      simp only [hsize, hroom, if_false]
      refine ⟨trivial, by simp, by simp [block_place], fun k hk => ?_⟩
      rw [bound_place _ _ hk]
      simp

/-- Only a store that returned the block's id makes it resident. -/
theorem exec_new {max : Nat} {p : Plain κ} {c : Call κ} {evicted : List BlockId} {b : BlockId}
    {e : Entry κ} (hb : p.block b = none) (hb' : (p.exec max evicted c).1.block b = some e) :
    ∃ r, c = .store r ∧ (p.exec max evicted c).2 = .stored b ∧ e = r.entry := by
  cases c with
  | store r =>
    refine ⟨r, rfl, ?_⟩
    simp only [exec] at hb' ⊢
    split at hb'
    · rw [hb] at hb'; cases hb'
    · rename_i hsize
      simp only [hsize, if_false]
      split at hb'
      · rw [block_removeAll] at hb'
        split at hb' <;> simp_all
      · rename_i hroom
        simp only [hroom, if_false]
        rw [block_place] at hb'
        split at hb'
        · rename_i heq
          cases hb'
          exact ⟨by rw [heq, next_reserve], rfl⟩
        · split at hb'
          · cases hb'
          · rw [block_reserve, block_removeAll] at hb'
            split at hb' <;> simp_all
  | load b' => simp [exec, hb] at hb'
  | loadByKey k => simp [exec, hb] at hb'
  | free b' =>
    simp only [exec, block_remove] at hb'
    split at hb' <;> simp_all
  | freeByKey k =>
    simp only [exec] at hb'
    split at hb'
    · rw [hb] at hb'; cases hb'
    · simp only [block_remove] at hb'
      split at hb' <;> simp_all

/-- A call that stored nothing leaves the counter alone. -/
theorem exec_next {max : Nat} {p : Plain κ} {c : Call κ} {evicted : List BlockId}
    (ho : ∀ b, (p.exec max evicted c).2 ≠ .stored b) : (p.exec max evicted c).1.next = p.next := by
  cases c with
  | store r =>
    simp only [exec] at ho ⊢
    split
    · rfl
    · split
      · simp
      · rename_i hsize hroom
        exact absurd (by simp [hsize, hroom]) (ho p.next)
  | load b => rfl
  | loadByKey k => rfl
  | free b => simp [exec]
  | freeByKey k =>
    simp only [exec]
    split <;> simp

end Plain

end Memnode.Blocks
