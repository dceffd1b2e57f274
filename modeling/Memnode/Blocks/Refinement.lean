/-
Memnode.Blocks.Refinement — whole runs of the striped store.

A run is a list of completed calls, each with the random choices its
eviction drew. `steps` lists what happened, call by call, and `final`
is the manager after it. Two results, for every run:

* `key_index_agrees`: the key index and the blocks agree, whatever
  failed, was evicted or was rebound on the way.
* `refines_plain_store`: what the calls returned is what the history
  says a store should return (`PlainHistory`), and a run in which no
  store entered eviction returns the same under every stripe count and
  every hash function.

Both rest on `exec_simulates`. The history statements are inductions
over the run with three facts about one call: a resident block stays as
it is or is removed for a listed reason, only a store makes a block
resident, and a store's id is new.
-/
import Memnode.Blocks.Simulation

set_option linter.unusedSectionVars false

namespace Memnode.Blocks

open Lib

variable {κ : Type} [DecidableEq κ] {cfg : Settings κ}

/-! ## Runs -/

/-- One completed call of a run. -/
structure Step (cfg : Settings κ) where
  before : BlockManager cfg
  sh : Shuffles cfg.stripeCount
  call : Call κ

namespace Step

def after (s : Step cfg) : BlockManager cfg := (s.before.exec s.sh s.call).1

def outcome (s : Step cfg) : Outcome := (s.before.exec s.sh s.call).2

/-- The call made block `b` disappear. -/
def Removes (s : Step cfg) (b : BlockId) : Prop :=
  (∃ e, s.before.block b = some e) ∧ s.after.block b = none

/-- The call was a store that stored `r` as block `b`. -/
def Stored (s : Step cfg) (r : StoreReq κ) (b : BlockId) : Prop :=
  s.call = .store r ∧ s.outcome = .stored b

/-- The call was a store whose first `_reserve` was refused. -/
def EntersEviction (s : Step cfg) : Prop :=
  ∃ r, s.call = .store r ∧ r.size ≤ Config.maxBlockSize ∧ (s.before.reserve r.size).2 = false

/-- The reasons for which a call may remove block `b` with entry `e`. -/
inductive MayRemove (s : Step cfg) (b : BlockId) (e : Entry κ) : Prop where
  | free : s.call = .free b → MayRemove s b e
  | freeByKey (k : κ) : s.call = .freeByKey k → s.before.bound k = some b → MayRemove s b e
  | rebind (r : StoreReq κ) (k : κ) (b' : BlockId) : s.Stored r b' → r.key = some k →
      e.key = some k → MayRemove s b e
  | evicted : s.EntersEviction → e.durability = .cache → MayRemove s b e

end Step

/-- The calls of a run, each with the manager it ran on. -/
def steps (m : BlockManager cfg) : List (Shuffles cfg.stripeCount × Call κ) → List (Step cfg)
  | [] => []
  | (sh, c) :: rest => ⟨m, sh, c⟩ :: steps (m.exec sh c).1 rest

/-- The manager after a run. -/
def final (m : BlockManager cfg) : List (Shuffles cfg.stripeCount × Call κ) → BlockManager cfg
  | [] => m
  | (sh, c) :: rest => final (m.exec sh c).1 rest

theorem final_append (m : BlockManager cfg) (xs ys : List (Shuffles cfg.stripeCount × Call κ)) :
    final m (xs ++ ys) = final (final m xs) ys := by
  induction xs generalizing m with
  | nil => rfl
  | cons x xs ih => exact ih (m.exec x.1 x.2).1

theorem steps_append (m : BlockManager cfg) (xs ys : List (Shuffles cfg.stripeCount × Call κ)) :
    steps m (xs ++ ys) = steps m xs ++ steps (final m xs) ys := by
  induction xs generalizing m with
  | nil => rfl
  | cons x xs ih =>
    simp only [List.cons_append, steps, final, ih]

/-- Every manager of a run is consistent. -/
theorem final_consistent {m : BlockManager cfg} (h : m.Consistent)
    (xs : List (Shuffles cfg.stripeCount × Call κ)) : (final m xs).Consistent := by
  induction xs generalizing m with
  | nil => exact h
  | cons x xs ih =>
    obtain ⟨_, _, _, _, hc⟩ := BlockManager.exec_simulates h x.1 x.2
    exact ih hc

theorem steps_consistent {m : BlockManager cfg} (h : m.Consistent)
    (xs : List (Shuffles cfg.stripeCount × Call κ)) : ∀ s ∈ steps m xs, s.before.Consistent := by
  induction xs generalizing m with
  | nil => intro s hs; simp [steps] at hs
  | cons x xs ih =>
    obtain ⟨_, _, _, _, hc⟩ := BlockManager.exec_simulates h x.1 x.2
    intro s hs
    rcases List.mem_cons.mp hs with rfl | hs
    · exact h
    · exact ih hc s hs

/-! ## The key index -/

/-- The key index and the blocks agree after every run: stripe `j` of
the index maps `k` to `b` exactly when `j` is the key's stripe and some
stripe holds block `b` with key `k` recorded in its entry. So no entry
dangles, at most one resident block carries a key, and no byte stays
reserved for a block nobody can reach. -/
theorem key_index_agrees (cfg : Settings κ) (xs : List (Shuffles cfg.stripeCount × Call κ)) :
    let m := final (BlockManager.init cfg) xs
    (∀ j k b, (m.keyStripes j).index.get k = some b ↔
      j = cfg.keySlot k ∧ ∃ i e, (m.stripes i).blocks.get b = some e ∧ e.key = some k) ∧
    (∀ k b b' i i' e e', (m.stripes i).blocks.get b = some e → e.key = some k →
      (m.stripes i').blocks.get b' = some e' → e'.key = some k → b = b') ∧
    m.reservedBytes = m.residentBytes := by
  intro m
  have hc : m.Consistent := final_consistent (BlockManager.consistent_init cfg) xs
  have hres : ∀ i b e, (m.stripes i).blocks.get b = some e → m.block b = some e :=
    fun i b e he => hc.books.placed.get_of_member he
  have hbound : ∀ i k b e, (m.stripes i).blocks.get b = some e → e.key = some k →
      m.bound k = some b :=
    fun i k b e he hk => (hc.ok.agree k b).mpr ⟨e, hres i b e he, hk⟩
  refine ⟨fun j k b => ?_, ?_, ?_⟩
  · constructor
    · intro hg
      have hj : cfg.keySlot k = j := hc.indexPlaced j k b hg
      obtain ⟨e, he, hk⟩ := (hc.ok.agree k b).mp (hc.indexPlaced.get_of_member hg)
      exact ⟨hj.symm, cfg.slot b, e, he, hk⟩
    · rintro ⟨rfl, i, e, he, hk⟩
      exact hbound i k b e he hk
  · intro k b b' i i' e e' he hk he' hk'
    have h1 := hbound i k b e he hk
    have h2 := hbound i' k b' e' he' hk'
    rw [h1] at h2
    exact Option.some.inj h2
  · have := hc.books.reserved
    simpa using this

/-! ## What one call can do to one block -/

namespace Step

theorem entersEviction_iff (s : Step cfg) :
    s.EntersEviction ↔ s.before.abs.EntersEviction cfg.maxMemoryBytes s.call := by
  constructor
  · rintro ⟨r, hcall, hsize, hres⟩
    refine ⟨r, hcall, hsize, ?_⟩
    rcases s.before.reserve_cases r.size with ⟨_, hgt⟩ | ⟨m', heq, _⟩
    · exact hgt
    · rw [heq] at hres; cases hres
  · rintro ⟨r, hcall, hsize, hgt⟩
    refine ⟨r, hcall, hsize, ?_⟩
    have hgt' : (cfg.maxMemoryBytes : Int) < s.before.reservedBytes + r.size := hgt
    rcases s.before.reserve_cases r.size with ⟨heq, _⟩ | ⟨m', _, hle, _⟩
    · rw [heq]
    · omega

/-- A resident block stays as it is or is removed for a listed reason. -/
theorem persists {s : Step cfg} (h : s.before.Consistent) {b : BlockId} {e : Entry κ}
    (hb : s.before.block b = some e) :
    s.after.block b = some e ∨ (s.after.block b = none ∧ s.MayRemove b e) := by
  obtain ⟨bs, hl, habs, hout, _⟩ := BlockManager.exec_simulates h s.sh s.call
  have hblock : s.after.block b = (s.before.abs.exec cfg.maxMemoryBytes bs s.call).1.block b := by
    rw [← habs]; rfl
  have ho : s.outcome = (s.before.abs.exec cfg.maxMemoryBytes bs s.call).2 := hout
  rw [hblock]
  rcases Plain.exec_persists h.ok hl (b := b) (e := e) hb with hkeep | ⟨hgone, hwhy⟩
  · exact Or.inl hkeep
  · refine Or.inr ⟨hgone, ?_⟩
    cases hwhy with
    | free hc => exact .free hc
    | freeByKey k hc hk => exact .freeByKey k hc hk
    | rebind r k b' hc hk hst hek => exact .rebind r k b' ⟨hc, ho.trans hst⟩ hk hek
    | evicted hev hcache => exact .evicted (s.entersEviction_iff.mpr hev) hcache

/-- Only a store makes a block resident. -/
theorem new_block {s : Step cfg} (h : s.before.Consistent) {b : BlockId} {e : Entry κ}
    (hb : s.before.block b = none) (hb' : s.after.block b = some e) :
    ∃ r, s.Stored r b ∧ e = r.entry := by
  obtain ⟨bs, hl, habs, hout, _⟩ := BlockManager.exec_simulates h s.sh s.call
  have hblock : s.after.block b = (s.before.abs.exec cfg.maxMemoryBytes bs s.call).1.block b := by
    rw [← habs]; rfl
  rw [hblock] at hb'
  obtain ⟨r, hcall, hst, he⟩ := Plain.exec_new (p := s.before.abs) hb hb'
  exact ⟨r, ⟨hcall, hout.trans hst⟩, he⟩

/-- A store's id is the counter, and its block and binding are there. -/
theorem stored_spec {s : Step cfg} (h : s.before.Consistent) {r : StoreReq κ} {b : BlockId}
    (hs : s.Stored r b) :
    b = s.before.idCounter ∧ s.after.idCounter = s.before.idCounter + 1 ∧
      s.before.block b = none ∧ s.after.block b = some r.entry ∧
      ∀ k, r.key = some k → s.after.bound k = some b := by
  obtain ⟨hcall, ho⟩ := hs
  obtain ⟨bs, hl, habs, hout, _⟩ := BlockManager.exec_simulates h s.sh s.call
  rw [hcall] at habs hout hl
  have ho' : (s.before.abs.exec cfg.maxMemoryBytes bs (.store r)).2 = .stored b := by
    rw [← hout, ← hcall]
    exact ho
  obtain ⟨hid, hnext, hblk, hbnd⟩ := Plain.exec_stored ho'
  have hafter : s.after.abs = (s.before.abs.exec cfg.maxMemoryBytes bs (.store r)).1 := by
    rw [after, hcall]
    exact habs
  rw [← hafter] at hnext hblk hbnd
  refine ⟨hid, hnext, ?_, hblk, hbnd⟩
  cases hb : s.before.block b with
  | none => rfl
  | some e =>
    have hlt : b < s.before.idCounter := h.ok.fresh b e hb
    rw [hid] at hlt
    exact absurd hlt (lt_irrefl _)

/-- A call that is not a successful store leaves the counter alone. -/
theorem idCounter_of_not_stored {s : Step cfg} (h : s.before.Consistent)
    (hs : ∀ r b, ¬ s.Stored r b) : s.after.idCounter = s.before.idCounter := by
  obtain ⟨bs, hl, habs, hout, _⟩ := BlockManager.exec_simulates h s.sh s.call
  have hnot : ∀ b, (s.before.abs.exec cfg.maxMemoryBytes bs s.call).2 ≠ .stored b := by
    intro b heq
    have ho : s.outcome = .stored b := hout.trans heq
    cases hcall : s.call with
    | store r => exact hs r b ⟨hcall, ho⟩
    | load _ => rw [hcall] at heq; simp [Plain.exec] at heq
    | loadByKey _ => rw [hcall] at heq; simp [Plain.exec] at heq
    | free _ => rw [hcall] at heq; simp [Plain.exec] at heq
    | freeByKey k =>
      rw [hcall] at heq
      simp only [Plain.exec] at heq
      split at heq <;> simp at heq
  have := Plain.exec_next hnot
  rw [← habs] at this
  exact this

end Step

/-! ## Histories -/

/-- The call was a successful store under key `k`. -/
def Step.StoresUnder (s : Step cfg) (k : κ) : Prop := ∃ r b, s.Stored r b ∧ r.key = some k

/-- Request `r` was stored as block `b` and the block was not removed since. -/
def Live (ss : List (Step cfg)) (r : StoreReq κ) (b : BlockId) : Prop :=
  ∃ pre s post, ss = pre ++ s :: post ∧ s.Stored r b ∧ ∀ t ∈ post, ¬ t.Removes b

/-- Request `r`, stored as block `b`, is the latest successful store under `k`. -/
def Latest (ss : List (Step cfg)) (k : κ) (r : StoreReq κ) (b : BlockId) : Prop :=
  ∃ pre s post, ss = pre ++ s :: post ∧ s.Stored r b ∧ r.key = some k ∧
    ∀ t ∈ post, ¬ t.StoresUnder k

theorem snoc_eq_append_cons {α : Type} {xs pre post : List α} {a b : α} :
    xs ++ [a] = pre ++ b :: post ↔
      (xs = pre ∧ a = b ∧ post = []) ∨ ∃ post', post = post' ++ [a] ∧ xs = pre ++ b :: post' := by
  rcases List.eq_nil_or_concat post with rfl | ⟨post', c, rfl⟩
  · simp
  · constructor
    · intro h
      have h' : xs ++ [a] = (pre ++ b :: post') ++ [c] := by simpa using h
      obtain ⟨hxs, hac⟩ := List.append_inj' h' rfl
      cases hac
      exact Or.inr ⟨post', by simp, hxs⟩
    · rintro (⟨_, _, h⟩ | ⟨post'', h, rfl⟩)
      · simp at h
      · rw [h]; simp

theorem live_snoc {ss : List (Step cfg)} {s : Step cfg} {r : StoreReq κ} {b : BlockId} :
    Live (ss ++ [s]) r b ↔ s.Stored r b ∨ (Live ss r b ∧ ¬ s.Removes b) := by
  constructor
  · rintro ⟨pre, t, post, heq, hst, hrem⟩
    rcases snoc_eq_append_cons.mp heq with ⟨_, rfl, _⟩ | ⟨post', rfl, rfl⟩
    · exact Or.inl hst
    · exact Or.inr ⟨⟨pre, t, post', rfl, hst, fun u hu => hrem u (by simp [hu])⟩,
        hrem s (by simp)⟩
  · rintro (hst | ⟨⟨pre, t, post, rfl, hst, hrem⟩, hs⟩)
    · exact ⟨ss, s, [], rfl, hst, by simp⟩
    · refine ⟨pre, t, post ++ [s], by simp, hst, fun u hu => ?_⟩
      rcases List.mem_append.mp hu with hu | hu
      · exact hrem u hu
      · rw [List.mem_singleton.mp hu]; exact hs

theorem latest_snoc {ss : List (Step cfg)} {s : Step cfg} {k : κ} {r : StoreReq κ} {b : BlockId} :
    Latest (ss ++ [s]) k r b →
      (s.Stored r b ∧ r.key = some k) ∨ (Latest ss k r b ∧ ¬ s.StoresUnder k) := by
  rintro ⟨pre, t, post, heq, hst, hk, hlast⟩
  rcases snoc_eq_append_cons.mp heq with ⟨_, rfl, _⟩ | ⟨post', rfl, rfl⟩
  · exact Or.inl ⟨hst, hk⟩
  · exact Or.inr ⟨⟨pre, t, post', rfl, hst, hk, fun u hu => hlast u (by simp [hu])⟩,
      hlast s (by simp)⟩

/-- What the calls of a run returned, and what the manager at its end
holds, told from the history alone. -/
structure PlainHistory (ss : List (Step cfg)) (m : BlockManager cfg) : Prop where
  /-- `load` returns the bytes of the store that returned the id, until
  the block is removed, and nothing before and after. -/
  load_iff : ∀ b d, m.load b = some d ↔ ∃ r, Live ss r b ∧ r.data = d
  /-- A block is removed only for a listed reason. -/
  removed : ∀ s ∈ ss, ∀ b e, s.before.block b = some e → s.after.block b = none → s.MayRemove b e
  /-- `load_by_key` returns the bytes of the latest store under the key,
  if that block was not removed. -/
  latest : ∀ k r b, Latest ss k r b →
    (Live ss r b → m.loadByKey k = some r.data) ∧ (¬ Live ss r b → m.loadByKey k = none)
  never_stored : ∀ k, (∀ s ∈ ss, ¬ s.StoresUnder k) → m.loadByKey k = none
  /-- `free` and `free_by_key` tell whether they removed a block. -/
  free_iff : ∀ s ∈ ss, ∀ b, s.call = .free b →
    ∃ ok, s.outcome = .freed ok ∧ (ok = true ↔ s.Removes b)
  freeByKey_iff : ∀ s ∈ ss, ∀ k, s.call = .freeByKey k →
    ∃ ok, s.outcome = .freed ok ∧ (ok = true ↔ ∃ b, s.Removes b)
  /-- No two stores return the same id. -/
  ids : ss.Pairwise (fun s t => ∀ r b r' b', s.Stored r b → t.Stored r' b' → b ≠ b')

/-! ### Induction over the run -/

section History

variable (xs : List (Shuffles cfg.stripeCount × Call κ))

/-- A run of one more call. -/
theorem steps_snoc (m : BlockManager cfg) (x : Shuffles cfg.stripeCount × Call κ) :
    steps m (xs ++ [x]) = steps m xs ++ [⟨final m xs, x.1, x.2⟩] := by
  rw [steps_append]; rfl

theorem final_snoc (m : BlockManager cfg) (x : Shuffles cfg.stripeCount × Call κ) :
    final m (xs ++ [x]) = (⟨final m xs, x.1, x.2⟩ : Step cfg).after := by
  rw [final_append]; rfl

/-- The resident blocks are the live stores. -/
theorem block_iff_live (b : BlockId) (e : Entry κ) :
    (final (BlockManager.init cfg) xs).block b = some e ↔
      ∃ r, Live (steps (BlockManager.init cfg) xs) r b ∧ r.entry = e := by
  induction xs using List.reverseRecOn generalizing e with
  | nil =>
    constructor
    · intro h
      have hnone : (BlockManager.init cfg).block b = none := rfl
      rw [final, hnone] at h
      cases h
    · rintro ⟨r, ⟨pre, s, post, heq, _⟩, _⟩
      simp [steps] at heq
  | append_singleton xs x ih =>
    rw [steps_snoc, final_snoc]
    have hc := final_consistent (BlockManager.consistent_init cfg) xs
    generalize hs : (⟨final (BlockManager.init cfg) xs, x.1, x.2⟩ : Step cfg) = s
    have hbefore : s.before = final (BlockManager.init cfg) xs := by rw [← hs]
    rw [← hbefore] at ih hc
    constructor
    · intro hb
      cases hold : s.before.block b with
      | none =>
        obtain ⟨r, hst, he⟩ := Step.new_block hc hold hb
        exact ⟨r, live_snoc.mpr (Or.inl hst), he.symm⟩
      | some e₀ =>
        rcases Step.persists hc hold with hkeep | ⟨hgone, _⟩
        · rw [hb] at hkeep
          cases hkeep
          obtain ⟨r, hlive, he⟩ := (ih e).mp hold
          refine ⟨r, live_snoc.mpr (Or.inr ⟨hlive, ?_⟩), he⟩
          rintro ⟨_, hnone⟩
          rw [hb] at hnone
          cases hnone
        · rw [hb] at hgone; cases hgone
    · rintro ⟨r, hlive, rfl⟩
      rcases live_snoc.mp hlive with hst | ⟨hlive, hrem⟩
      · exact (Step.stored_spec hc hst).2.2.2.1
      · have hold := (ih r.entry).mpr ⟨r, hlive, rfl⟩
        rcases Step.persists hc hold with hkeep | ⟨hgone, _⟩
        · exact hkeep
        · exact absurd ⟨⟨_, hold⟩, hgone⟩ hrem

/-- A call that does not store under `k` can only unbind it. -/
theorem Step.bound_of_not_storesUnder {s : Step cfg} (hc : s.before.Consistent)
    (hc' : s.after.Consistent) {k : κ} (hk : ¬ s.StoresUnder k) {b : BlockId}
    (hb : s.after.bound k = some b) :
    s.before.bound k = some b ∧ s.after.block b = s.before.block b := by
  obtain ⟨e, he, hek⟩ := (hc'.ok.agree k b).mp hb
  have he' : s.after.block b = some e := he
  cases hold : s.before.block b with
  | none =>
    obtain ⟨r, hst, rfl⟩ := Step.new_block hc hold he
    exact absurd ⟨r, b, hst, hek⟩ hk
  | some e₀ =>
    rcases Step.persists hc hold with hkeep | ⟨hgone, _⟩
    · rw [he'] at hkeep
      cases hkeep
      exact ⟨(hc.ok.agree k b).mpr ⟨e, hold, hek⟩, he'⟩
    · rw [he'] at hgone; cases hgone

/-- A key is bound to the latest block stored under it, or to none. -/
theorem bound_latest {k : κ} {r : StoreReq κ} {b : BlockId}
    (h : Latest (steps (BlockManager.init cfg) xs) k r b) :
    ((final (BlockManager.init cfg) xs).bound k = some b ∧
        (final (BlockManager.init cfg) xs).block b = some r.entry) ∨
      (final (BlockManager.init cfg) xs).bound k = none := by
  induction xs using List.reverseRecOn with
  | nil =>
    obtain ⟨pre, s, post, heq, _⟩ := h
    simp [steps] at heq
  | append_singleton xs x ih =>
    have hc := final_consistent (BlockManager.consistent_init cfg) xs
    have hc' := final_consistent (BlockManager.consistent_init cfg) (xs ++ [x])
    rw [steps_snoc] at h
    rw [final_snoc] at hc' ⊢
    generalize hs : (⟨final (BlockManager.init cfg) xs, x.1, x.2⟩ : Step cfg) = s at *
    have hbefore : s.before = final (BlockManager.init cfg) xs := by rw [← hs]
    rw [← hbefore] at ih hc
    rcases latest_snoc h with ⟨hst, hk⟩ | ⟨hlatest, hnot⟩
    · obtain ⟨_, _, _, hblk, hbnd⟩ := Step.stored_spec hc hst
      exact Or.inl ⟨hbnd k hk, hblk⟩
    · cases hb : s.after.bound k with
      | none => exact Or.inr rfl
      | some b' =>
        obtain ⟨hold, hsame⟩ := Step.bound_of_not_storesUnder hc hc' hnot hb
        rcases ih hlatest with ⟨hbk, hblk⟩ | hnone
        · rw [hbk] at hold
          cases hold
          exact Or.inl ⟨rfl, hsame.trans hblk⟩
        · rw [hnone] at hold; cases hold

/-- A key nobody stored under is not bound. -/
theorem bound_never_stored {k : κ}
    (h : ∀ s ∈ steps (BlockManager.init cfg) xs, ¬ s.StoresUnder k) :
    (final (BlockManager.init cfg) xs).bound k = none := by
  induction xs using List.reverseRecOn with
  | nil => rfl
  | append_singleton xs x ih =>
    have hc := final_consistent (BlockManager.consistent_init cfg) xs
    have hc' := final_consistent (BlockManager.consistent_init cfg) (xs ++ [x])
    rw [steps_snoc] at h
    rw [final_snoc] at hc' ⊢
    have hold := ih (fun s hs => h s (by simp [hs]))
    cases hb : (⟨final (BlockManager.init cfg) xs, x.1, x.2⟩ : Step cfg).after.bound k with
    | none => rfl
    | some b =>
      have hbound := (Step.bound_of_not_storesUnder hc hc' (h _ (by simp)) hb).1
      rw [hold] at hbound
      cases hbound

/-- Ids are drawn in increasing order. -/
theorem ids_increasing :
    (∀ s ∈ steps (BlockManager.init cfg) xs, ∀ r b, s.Stored r b →
        b < (final (BlockManager.init cfg) xs).idCounter) ∧
      (steps (BlockManager.init cfg) xs).Pairwise
        (fun s t => ∀ r b r' b', s.Stored r b → t.Stored r' b' → b ≠ b') := by
  induction xs using List.reverseRecOn with
  | nil => simp [steps]
  | append_singleton xs x ih =>
    have hc := final_consistent (BlockManager.consistent_init cfg) xs
    rw [steps_snoc, final_snoc]
    generalize hs : (⟨final (BlockManager.init cfg) xs, x.1, x.2⟩ : Step cfg) = s at *
    have hbefore : s.before = final (BlockManager.init cfg) xs := by rw [← hs]
    rw [← hbefore] at ih hc
    obtain ⟨hlt, hpair⟩ := ih
    have hmono : s.before.idCounter ≤ s.after.idCounter := by
      by_cases hst : ∃ r b, s.Stored r b
      · obtain ⟨r, b, hst⟩ := hst
        rw [(Step.stored_spec hc hst).2.1]
        exact Int.le_add_one (le_refl _)
      · exact le_of_eq (Step.idCounter_of_not_stored hc (fun r b hst' => hst ⟨r, b, hst'⟩)).symm
    refine ⟨fun t ht r b hst => ?_, List.pairwise_append.mpr ⟨hpair, by simp, ?_⟩⟩
    · rcases List.mem_append.mp ht with ht | ht
      · exact lt_of_lt_of_le (hlt t ht r b hst) hmono
      · rw [List.mem_singleton.mp ht] at hst
        obtain ⟨hid, hnext, _⟩ := Step.stored_spec hc hst
        rw [hid, hnext]
        exact Int.lt_add_one_of_le (le_refl _)
    · intro t ht t' ht' r b r' b' hst hst' hbb
      rw [List.mem_singleton.mp ht'] at hst'
      have hlt' := hlt t ht r b hst
      rw [hbb, (Step.stored_spec hc hst').1] at hlt'
      exact lt_irrefl _ hlt'

end History

/-- `free` and `free_by_key` tell whether they removed a block. -/
theorem Step.free_iff {s : Step cfg} (h : s.before.Consistent) {b : BlockId}
    (hcall : s.call = .free b) : ∃ ok, s.outcome = .freed ok ∧ (ok = true ↔ s.Removes b) := by
  obtain ⟨habs, hret, _⟩ := BlockManager.abs_free h.books b
  have hafter : s.after = (s.before.free b).1 := by rw [Step.after, hcall]; rfl
  have hgone : s.after.block b = none := by
    have : s.after.abs.block b = none := by rw [hafter, habs, Plain.block_remove, if_pos rfl]
    exact this
  refine ⟨(s.before.free b).2, by rw [Step.outcome, hcall]; rfl, ?_⟩
  rw [hret, Option.isSome_iff_exists]
  exact ⟨fun he => ⟨he, hgone⟩, fun hr => hr.1⟩

theorem Step.freeByKey_iff {s : Step cfg} (h : s.before.Consistent) {k : κ}
    (hcall : s.call = .freeByKey k) :
    ∃ ok, s.outcome = .freed ok ∧ (ok = true ↔ ∃ b, s.Removes b) := by
  cases hk : s.before.bound k with
  | none =>
    have hafter : s.after = s.before := by
      simp [Step.after, hcall, BlockManager.exec, BlockManager.freeByKey, hk]
    refine ⟨false, by simp [Step.outcome, hcall, BlockManager.exec, BlockManager.freeByKey, hk], ?_⟩
    constructor
    · intro hf; cases hf
    · rintro ⟨b, ⟨e, he⟩, hgone⟩
      rw [hafter, he] at hgone
      cases hgone
  | some b =>
    -- the call is `free b`, and the bound block is resident
    obtain ⟨e, he, _⟩ := (h.ok.agree k b).mp hk
    have hsame : s.before.exec s.sh s.call = s.before.exec s.sh (.free b) := by
      simp [hcall, BlockManager.exec, BlockManager.freeByKey, hk]
    obtain ⟨ok, hout, hiff⟩ := Step.free_iff (s := ⟨s.before, s.sh, .free b⟩) h rfl
    have hremoves : s.Removes b ↔ (⟨s.before, s.sh, .free b⟩ : Step cfg).Removes b := by
      simp only [Step.Removes, Step.after, hsame]
    refine ⟨ok, by rw [Step.outcome, hsame]; exact hout, fun hok => ⟨b, ?_⟩, ?_⟩
    · exact hremoves.mpr (hiff.mp hok)
    · rintro ⟨b', ⟨e', he'⟩, hgone⟩
      refine hiff.mpr ⟨⟨e, he⟩, ?_⟩
      rcases Step.persists (s := ⟨s.before, s.sh, .free b⟩) h he with hkeep | ⟨hnone, _⟩
      · have hfree := BlockManager.abs_free h.books b
        have hnone : (s.before.free b).1.abs.block b = none := by
          rw [hfree.1, Plain.block_remove, if_pos rfl]
        exact hnone
      · exact hnone

/-- Every run has a plain store's history. -/
theorem plainHistory (cfg : Settings κ) (xs : List (Shuffles cfg.stripeCount × Call κ)) :
    PlainHistory (steps (BlockManager.init cfg) xs) (final (BlockManager.init cfg) xs) := by
  have hcs := steps_consistent (BlockManager.consistent_init cfg) xs
  have hc := final_consistent (BlockManager.consistent_init cfg) xs
  have hblk := block_iff_live xs
  generalize hss : steps (BlockManager.init cfg) xs = ss at hcs hblk
  generalize hm : final (BlockManager.init cfg) xs = m at hc hblk
  refine ⟨fun b d => ?_, fun s hs b e hb hgone => ?_, fun k r b hlatest => ⟨fun hlive => ?_,
    fun hdead => ?_⟩, fun k hk => ?_, fun s hs b => Step.free_iff (hcs s hs),
    fun s hs k => Step.freeByKey_iff (hcs s hs), ?_⟩
  · simp only [BlockManager.load, Option.map_eq_some_iff, hblk]
    constructor
    · rintro ⟨e, ⟨r, hlive, rfl⟩, rfl⟩; exact ⟨r, hlive, rfl⟩
    · rintro ⟨r, hlive, rfl⟩; exact ⟨r.entry, ⟨r, hlive, rfl⟩, rfl⟩
  · rcases Step.persists (hcs s hs) hb with hkeep | ⟨_, hwhy⟩
    · rw [hgone] at hkeep; cases hkeep
    · exact hwhy
  · have hb : m.block b = some r.entry := (hblk b r.entry).mpr ⟨r, hlive, rfl⟩
    obtain ⟨_, _, _, _, _, hk, _⟩ := hlatest
    have hbound : m.bound k = some b := (hc.ok.agree k b).mpr ⟨r.entry, hb, hk⟩
    simp [BlockManager.loadByKey, hbound, BlockManager.load, hb, StoreReq.entry]
  · have hbound := bound_latest xs (by rw [hss]; exact hlatest)
    rw [hm] at hbound
    rcases hbound with ⟨_, hb⟩ | hnone
    · exfalso
      obtain ⟨r', hlive, hr'⟩ := (hblk b r.entry).mp hb
      have : r' = r := by
        cases r; cases r'
        simpa [StoreReq.entry] using hr'
      exact hdead (this ▸ hlive)
    · simp [BlockManager.loadByKey, hnone]
  · have hnone := bound_never_stored xs (by rw [hss]; exact hk)
    rw [hm] at hnone
    simp [BlockManager.loadByKey, hnone]
  · rw [← hss]; exact (ids_increasing xs).2

/-! ## The stripe count does not show -/

/-- The fields of `stats` other than `stripes`. -/
def Stats.unstriped (s : BlockManager.Stats) : Int × Nat × Int × Nat :=
  (s.usedBytes, s.maxBytes, s.freeBytes, s.blockCount)

/-- What a caller sees of a run: each call's result and the statistics after it. -/
def observed (ss : List (Step cfg)) : List (Outcome × (Int × Nat × Int × Nat)) :=
  ss.map (fun s => (s.outcome, Stats.unstriped s.after.stats))

/-- Without eviction the plain store is deterministic, so two managers
that look the same keep looking the same. -/
theorem observed_eq {cfg' : Settings κ} (hmax : cfg'.maxMemoryBytes = cfg.maxMemoryBytes)
    {m : BlockManager cfg} {m' : BlockManager cfg'} (h : m.Consistent) (h' : m'.Consistent)
    (habs : m'.abs = m.abs) (xs : List (Shuffles cfg.stripeCount × Call κ))
    (ys : List (Shuffles cfg'.stripeCount × Call κ)) (hcalls : ys.map Prod.snd = xs.map Prod.snd)
    (hroom : ∀ s ∈ steps m xs, ¬ s.EntersEviction) :
    observed (steps m' ys) = observed (steps m xs) := by
  induction xs generalizing m m' ys with
  | nil =>
    have : ys = [] := by simpa using hcalls
    rw [this]; rfl
  | cons x xs ih =>
    obtain ⟨y, ys, rfl⟩ : ∃ y ys', ys = y :: ys' := by
      cases ys with
      | nil => simp at hcalls
      | cons y ys => exact ⟨y, ys, rfl⟩
    obtain ⟨hxy, hcalls⟩ : y.2 = x.2 ∧ ys.map Prod.snd = xs.map Prod.snd := by
      simpa using hcalls
    have hno : ¬ m.abs.EntersEviction cfg.maxMemoryBytes x.2 := by
      intro hev
      exact hroom ⟨m, x.1, x.2⟩ (by simp [steps]) ((Step.entersEviction_iff _).mpr hev)
    obtain ⟨bs, hl, ha, ho, hc⟩ := BlockManager.exec_simulates h x.1 x.2
    obtain ⟨bs', hl', ha', ho', hc'⟩ := BlockManager.exec_simulates h' y.1 y.2
    rw [hmax, hxy, habs] at hl' ha' ho'
    have hbs : bs = [] := by by_contra hne; exact hno (hl.needed hne)
    have hbs' : bs' = [] := by by_contra hne; exact hno (hl'.needed hne)
    subst hbs hbs'
    have habs' : (m'.exec y.1 y.2).1.abs = (m.exec x.1 x.2).1.abs := by
      rw [hxy]; exact ha'.trans ha.symm
    have hstats : Stats.unstriped (m'.exec y.1 y.2).1.stats
        = Stats.unstriped (m.exec x.1 x.2).1.stats := by
      have hused := congrArg Plain.used habs'
      have hcount := congrArg Plain.count habs'
      simp only [BlockManager.abs] at hused hcount
      simp only [Stats.unstriped, BlockManager.stats, hused, hcount, hmax]
    have hhead : (m'.exec y.1 y.2).2 = (m.exec x.1 x.2).2 := by
      rw [hxy]; exact ho'.trans ho.symm
    have htail := ih hc hc' habs' ys hcalls
      (fun s hs => hroom s (List.mem_cons_of_mem _ hs))
    show (_, _) :: _ = (_, _) :: _
    rw [show (Step.mk m' y.1 y.2).outcome = (Step.mk m x.1 x.2).outcome from hhead]
    exact congrArg₂ List.cons (congrArg₂ Prod.mk rfl hstats) htail

/-- **The striped store refines a plain store.** Every run has a plain
store's history, and when none of its stores enters eviction, the same
calls return the same results and the same statistics under any other
stripe count and any other hash function. -/
theorem refines_plain_store (cfg : Settings κ)
    (xs : List (Shuffles cfg.stripeCount × Call κ)) :
    PlainHistory (steps (BlockManager.init cfg) xs) (final (BlockManager.init cfg) xs) ∧
    ((∀ s ∈ steps (BlockManager.init cfg) xs, ¬ s.EntersEviction) →
      ∀ (cfg' : Settings κ) (ys : List (Shuffles cfg'.stripeCount × Call κ)),
        cfg'.maxMemoryBytes = cfg.maxMemoryBytes → ys.map Prod.snd = xs.map Prod.snd →
          observed (steps (BlockManager.init cfg') ys)
            = observed (steps (BlockManager.init cfg) xs)) := by
  refine ⟨plainHistory cfg xs, fun hroom cfg' ys hmax hcalls => ?_⟩
  exact observed_eq hmax (BlockManager.consistent_init cfg) (BlockManager.consistent_init cfg')
    (by rw [BlockManager.abs_init, BlockManager.abs_init]) xs ys hcalls hroom

end Memnode.Blocks
