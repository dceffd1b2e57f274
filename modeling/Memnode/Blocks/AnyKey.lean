/-
Memnode.Blocks.AnyKey — the block store when keys come off the wire.

JSON and msgpack decode a key to any object, and `hash(key)` raises for
lists and dictionaries. `Manager` has the calls for keys with a hash;
here a key may also be one without, together with the text of the
`TypeError`. `store` hashes its key only after the block is in its
stripe, and an entry with such a key makes `free` and the eviction loop
raise when it is removed: the quota of that entry is given back, later
victims of the same stripe are gone without theirs.

  §1 the calls, under the names of the source;
  §2 with keys that have a hash they are the calls of `Manager`
     (`store_eq`, `free_eq`);
  §3 what a call can leave behind: everything but a block that `store`
     has just inserted only shrinks (`store_failed`);
  §4 what any calls leave of a block: they remove it or keep it as it is
     (`Later.kept`), and a store's own block is there (`store_ok`).
-/
import Memnode.Blocks.Simulation

set_option linter.unusedSectionVars false

namespace Memnode.Blocks

open Lib

/-! ## §1 The calls -/

/-- A key with a hash, or the text of what `hash(key)` raises. -/
abbrev KeyObject (κ : Type) := κ ⊕ String

/-- What `hash(key)` raises, for a key that is not None. -/
def hashError {κ : Type} : Option (KeyObject κ) → Option String
  | some (.inr text) => some text
  | _ => none

/-- What `store` raises. -/
inductive StoreFailure where
  | refused (e : StoreError)
  | unhashable (text : String)

namespace AnyKey

variable {κ : Type} [DecidableEq κ] {cfg : Settings (KeyObject κ)}

/-- `_evict_to_free`: release the victims of one stripe, one by one. -/
def releaseVictims (m : BlockManager cfg) :
    List (Victim (KeyObject κ)) → BlockManager cfg × Option String
  | [] => (m, none)
  | v :: vs =>
      match hashError v.key with
      | some text => (m.release v.size, some text)
      | none => releaseVictims ((m.release v.size).dropKey? v.key v.bid) vs

/-- `_evict_to_free`: the loop over the stripes. -/
def evictFrom (sh : Shuffles cfg.stripeCount) (needed : Nat) :
    List (Fin cfg.stripeCount) → BlockManager cfg → Nat → BlockManager cfg × Except String Nat
  | [], m, freed => (m, .ok freed)
  | i :: rest, m, freed =>
      let (m', freed', victims) := m.evictStripe sh needed i freed
      match releaseVictims m' victims with
      | (m'', some text) => (m'', .error text)
      | (m'', none) =>
          if m''.hasRoom needed then (m'', .ok freed') else evictFrom sh needed rest m'' freed'

/-- `_evict_to_free`. -/
def evictToFree (m : BlockManager cfg) (sh : Shuffles cfg.stripeCount) (needed : Nat) :
    BlockManager cfg × Except String Nat :=
  evictFrom sh needed sh.order m 0

/-- `store`, first part: get `size` bytes of quota, evicting if needed. -/
def acquire (m : BlockManager cfg) (sh : Shuffles cfg.stripeCount) (size : Nat) :
    BlockManager cfg × Except StoreFailure Unit :=
  match m.reserve size with
  | (m₁, true) => (m₁, .ok ())
  | (m₁, false) =>
      match evictToFree m₁ sh size with
      | (m₂, .error text) => (m₂, .error (.unhashable text))
      | (m₂, .ok freed) =>
          match m₂.reserve size with
          | (m₃, true) => (m₃, .ok ())
          | (m₃, false) =>
              (m₃, .error (.refused
                (.outOfMemory size m₃.reservedBytes cfg.maxMemoryBytes freed)))

/-- `store`. -/
def store (m : BlockManager cfg) (sh : Shuffles cfg.stripeCount) (r : StoreReq (KeyObject κ)) :
    BlockManager cfg × Except StoreFailure BlockId :=
  if r.size > Config.maxBlockSize then (m, .error (.refused (.blockTooLarge r.size)))
  else
    match acquire m sh r.size with
    | (m₁, .error e) => (m₁, .error e)
    | (m₁, .ok ()) =>
        match hashError r.key with
        -- the block is already in its stripe
        | some text => (m₁.nextId.insertBlock m₁.idCounter r.entry, .error (.unhashable text))
        | none => let (m₂, b) := m₁.place r; (m₂, .ok b)

/-- `free`. -/
def free (m : BlockManager cfg) (b : BlockId) : BlockManager cfg × Except String Bool :=
  match m.popFrom (cfg.slot b) b with
  | (_, none) => (m, .ok false)
  | (m₁, some e) =>
      match hashError e.key with
      | some text => (m₁.release e.size, .error text)
      | none => ((m₁.release e.size).dropKey? e.key b, .ok true)

/-- `free_by_key`. -/
def freeByKey (m : BlockManager cfg) : KeyObject κ → BlockManager cfg × Except String Bool
  | .inr text => (m, .error text)
  | .inl k =>
      match m.bound (.inl k) with
      | none => (m, .ok false)
      | some b => free m b

/-- The manager after a call. -/
def after (m : BlockManager cfg) (sh : Shuffles cfg.stripeCount) :
    Call (KeyObject κ) → BlockManager cfg
  | .store r => (store m sh r).1
  | .free b => (free m b).1
  | .freeByKey k => (freeByKey m k).1
  | .load _ => m
  | .loadByKey _ => m

/-! ## §2 Keys that have a hash -/

/-- No stored key raises. -/
def Hashable (m : BlockManager cfg) : Prop :=
  ∀ i, ∀ x ∈ (m.stripes i).blocks.entries, hashError x.2.key = none

theorem hashable_init (cfg : Settings (KeyObject κ)) : Hashable (.init cfg) :=
  fun _ _ hx => absurd hx List.not_mem_nil

theorem Hashable.congr {m m' : BlockManager cfg} (h : Hashable m) (hs : m'.stripes = m.stripes) :
    Hashable m' := by
  unfold Hashable
  rw [hs]
  exact h

/-- A pop leaves hashable keys behind, and returns one. -/
theorem Hashable.popFrom {m m' : BlockManager cfg} (h : Hashable m) {i : Fin cfg.stripeCount}
    {b : BlockId} {e : Entry (KeyObject κ)} (hpop : m.popFrom i b = (m', some e)) :
    Hashable m' ∧ hashError e.key = none := by
  obtain ⟨_, hn⟩ | ⟨e', hget, heq⟩ := m.popFrom_cases i b
  · rw [hn] at hpop
    cases hpop
  · rw [heq] at hpop
    cases hpop
    refine ⟨?_, h i (b, e) ((Dict.get_eq_some_iff _ _ _).mp hget)⟩
    intro j x hx
    by_cases hj : j = i
    · subst hj
      simp only [Function.update_self] at hx
      exact h j x (List.mem_of_mem_filter hx)
    · simp only [Function.update_of_ne hj] at hx
      exact h j x hx

theorem Hashable.takeVictims (needed : Nat) (i : Fin cfg.stripeCount) (cands : List BlockId) :
    ∀ {m : BlockManager cfg} (freed : Nat), Hashable m →
      Hashable (BlockManager.takeVictims needed i cands m freed).1 ∧
        ∀ v ∈ (BlockManager.takeVictims needed i cands m freed).2.2, hashError v.key = none := by
  induction cands with
  | nil =>
    intro m freed h
    exact ⟨h, by simp [BlockManager.takeVictims]⟩
  | cons b rest ih =>
    intro m freed h
    cases hpop : m.popFrom i b with
    | mk m' popped =>
      cases popped with
      | none =>
        simp only [BlockManager.takeVictims, hpop]
        exact ih freed h
      | some e =>
        obtain ⟨h', hkey⟩ := h.popFrom hpop
        simp only [BlockManager.takeVictims, hpop]
        split
        · exact ⟨h', by simpa using hkey⟩
        · obtain ⟨hrest, hvs⟩ := ih (freed + e.size) h'
          refine ⟨hrest, ?_⟩
          intro v hv
          rcases List.mem_cons.mp hv with rfl | hv
          · exact hkey
          · exact hvs v hv

theorem releaseVictims_eq {vs : List (Victim (KeyObject κ))} :
    ∀ (m : BlockManager cfg), (∀ v ∈ vs, hashError v.key = none) →
      releaseVictims m vs = (m.releaseVictims vs, none) := by
  induction vs with
  | nil =>
    intro m _
    rfl
  | cons v vs ih =>
    intro m hvs
    simp only [releaseVictims, hvs v (List.mem_cons_self ..), BlockManager.releaseVictims]
    exact ih _ (fun w hw => hvs w (List.mem_cons_of_mem _ hw))

theorem evictFrom_eq (sh : Shuffles cfg.stripeCount) (needed : Nat)
    (order : List (Fin cfg.stripeCount)) :
    ∀ {m : BlockManager cfg} (freed : Nat), Hashable m →
      evictFrom sh needed order m freed
          = ((BlockManager.evictFrom sh needed order m freed).1,
            .ok (BlockManager.evictFrom sh needed order m freed).2) ∧
        Hashable (BlockManager.evictFrom sh needed order m freed).1 := by
  induction order with
  | nil =>
    intro m freed h
    exact ⟨rfl, h⟩
  | cons i rest ih =>
    intro m freed h
    have hvictims : Hashable (m.evictStripe sh needed i freed).1 ∧
        ∀ v ∈ (m.evictStripe sh needed i freed).2.2, hashError v.key = none :=
      h.takeVictims needed i (sh.candidates i (m.cacheIds i)) freed
    cases hx : m.evictStripe sh needed i freed with
    | mk m' r =>
      obtain ⟨freed', victims⟩ := r
      rw [hx] at hvictims
      simp only [evictFrom, BlockManager.evictFrom, hx, releaseVictims_eq m' hvictims.2]
      have hleft : Hashable (m'.releaseVictims victims) :=
        hvictims.1.congr (BlockManager.stripes_releaseVictims victims m')
      by_cases hroom : (m'.releaseVictims victims).hasRoom needed = true
      · simp only [hroom, if_true]
        exact ⟨trivial, hleft⟩
      · simp only [hroom]
        exact ih freed' hleft

theorem acquire_eq {m : BlockManager cfg} (h : Hashable m) (sh : Shuffles cfg.stripeCount)
    (size : Nat) :
    acquire m sh size = ((m.acquire sh size).1, (m.acquire sh size).2.mapError .refused) ∧
      Hashable (m.acquire sh size).1 := by
  have hreserve : ∀ {m : BlockManager cfg}, Hashable m → Hashable (m.reserve size).1 := by
    intro m hm
    unfold BlockManager.reserve
    split
    · exact hm
    · exact hm.congr rfl
  have hfirst := hreserve h
  unfold acquire BlockManager.acquire
  obtain ⟨hres, _⟩ | ⟨m', hres, _, _⟩ := m.reserve_cases size
  · obtain ⟨hevict, hleft⟩ := evictFrom_eq sh size sh.order 0 h
    have hsecond := hreserve hleft
    rw [hres]
    simp only [evictToFree, BlockManager.evictToFree, hevict]
    cases hagain : BlockManager.reserve (BlockManager.evictFrom sh size sh.order m 0).1 size with
    | mk m₃ ok =>
      rw [hagain] at hsecond
      cases ok <;> exact ⟨rfl, hsecond⟩
  · rw [hres] at hfirst ⊢
    exact ⟨rfl, hfirst⟩

theorem Hashable.insertBlock {m : BlockManager cfg} (h : Hashable m) (b : BlockId)
    {e : Entry (KeyObject κ)} (he : hashError e.key = none) : Hashable (m.insertBlock b e) := by
  intro j x hx
  by_cases hj : j = cfg.slot b
  · subst hj
    simp only [BlockManager.insertBlock, Function.update_self] at hx
    rcases Dict.mem_setEntries.mp hx with ⟨_, hx⟩ | ⟨_, hx⟩
    · rw [hx]
      exact he
    · exact h _ x hx
  · simp only [BlockManager.insertBlock, Function.update_of_ne hj] at hx
    exact h j x hx

theorem Hashable.freeWith {m : BlockManager cfg} (h : Hashable m) (drop : Bool) (b : BlockId) :
    Hashable (m.freeWith drop b).1 := by
  unfold BlockManager.freeWith
  cases hpop : m.popFrom (cfg.slot b) b with
  | mk m₁ popped =>
    cases popped with
    | none => exact h
    | some e =>
      cases drop with
      | false => exact (h.popFrom hpop).1.congr rfl
      | true =>
        exact (h.popFrom hpop).1.congr (by simp [BlockManager.stripes_dropKey?, BlockManager.release])

theorem Hashable.place {m : BlockManager cfg} (h : Hashable m) {r : StoreReq (KeyObject κ)}
    (hr : hashError r.key = none) : Hashable (m.place r).1 := by
  have hinsert : Hashable (m.nextId.insertBlock m.idCounter r.entry) :=
    Hashable.insertBlock (h.congr rfl) _ hr
  unfold BlockManager.place
  cases r.key with
  | none => exact hinsert
  | some k =>
    have hbind : Hashable ((m.nextId.insertBlock m.idCounter r.entry).bindKey k m.idCounter).1 :=
      hinsert.congr rfl
    dsimp only
    cases hbound : (m.nextId.insertBlock m.idCounter r.entry).bindKey k m.idCounter with
    | mk m₂ previous =>
      rw [hbound] at hbind
      cases previous with
      | none => exact hbind
      | some previous =>
        dsimp only
        split
        · exact hbind.freeWith false previous
        · exact hbind

/-- With hashable keys `store` is the store of `Manager`. -/
theorem store_eq {m : BlockManager cfg} (h : Hashable m) (sh : Shuffles cfg.stripeCount)
    {r : StoreReq (KeyObject κ)} (hr : hashError r.key = none) :
    store m sh r = ((m.store sh r).1, (m.store sh r).2.mapError .refused) ∧
      Hashable (m.store sh r).1 := by
  unfold store BlockManager.store
  split
  · exact ⟨rfl, h⟩
  · obtain ⟨hacquire, hleft⟩ := acquire_eq h sh r.size
    rw [hacquire, hr]
    cases hres : m.acquire sh r.size with
    | mk m₁ res =>
      rw [hres] at hleft
      cases res with
      | error e => exact ⟨rfl, hleft⟩
      | ok u => exact ⟨rfl, Hashable.place hleft hr⟩

/-- With hashable keys `free` is the free of `Manager`. -/
theorem free_eq {m : BlockManager cfg} (h : Hashable m) (b : BlockId) :
    free m b = ((m.free b).1, .ok (m.free b).2) := by
  unfold free BlockManager.free BlockManager.freeWith
  cases hpop : m.popFrom (cfg.slot b) b with
  | mk m₁ popped =>
    cases popped with
    | none => rfl
    | some e => simp only [(h.popFrom hpop).2, if_true]

/-- Calls by keys that have a hash store no others. -/
theorem Hashable.after {m : BlockManager cfg} (h : Hashable m) (sh : Shuffles cfg.stripeCount)
    {c : Call (KeyObject κ)} (hc : ∀ r, c = .store r → hashError r.key = none) :
    Hashable (after m sh c) := by
  have hfree : ∀ b, Hashable (free m b).1 := by
    intro b
    rw [free_eq h]
    exact h.freeWith true b
  cases c with
  | store r =>
    obtain ⟨hstore, hleft⟩ := store_eq h sh (hc r rfl)
    rwa [AnyKey.after, hstore]
  | load => exact h
  | loadByKey => exact h
  | free b => exact hfree b
  | freeByKey k =>
    simp only [AnyKey.after, freeByKey]
    split
    · exact h
    · split
      · exact h
      · exact hfree _

end AnyKey

/-! ## §3 What is left behind -/

section Shrunk

variable {κ : Type} [DecidableEq κ] {cfg : Settings κ}

/-- Blocks and bindings may have gone and quota may have been given back. -/
structure Shrunk (m m' : BlockManager cfg) : Prop where
  block : ∀ b, m'.block b = m.block b ∨ m'.block b = none
  bound : ∀ k, m'.bound k = m.bound k ∨ m'.bound k = none
  reserved : 0 ≤ m.reservedBytes → 0 ≤ m'.reservedBytes ∧ m'.reservedBytes ≤ m.reservedBytes
  idCounter : m'.idCounter = m.idCounter

namespace Shrunk

theorem refl (m : BlockManager cfg) : Shrunk m m :=
  ⟨fun _ => Or.inl rfl, fun _ => Or.inl rfl, fun h => ⟨h, Int.le_refl _⟩, rfl⟩

theorem trans {m₁ m₂ m₃ : BlockManager cfg} (h : Shrunk m₁ m₂) (h' : Shrunk m₂ m₃) :
    Shrunk m₁ m₃ where
  block := by
    intro b
    rcases h'.block b with hb | hb
    · rw [hb]
      exact h.block b
    · exact Or.inr hb
  bound := by
    intro k
    rcases h'.bound k with hk | hk
    · rw [hk]
      exact h.bound k
    · exact Or.inr hk
  reserved := by
    intro h0
    obtain ⟨h1, hle⟩ := h.reserved h0
    obtain ⟨h2, hle'⟩ := h'.reserved h1
    exact ⟨h2, hle'.trans hle⟩
  idCounter := h'.idCounter.trans h.idCounter

theorem popFrom (m : BlockManager cfg) (i : Fin cfg.stripeCount) (b : BlockId) :
    Shrunk m (m.popFrom i b).1 := by
  obtain ⟨_, heq⟩ | ⟨e, _, heq⟩ := m.popFrom_cases i b
  · rw [heq]
    exact refl m
  · rw [heq]
    refine ⟨?_, fun _ => Or.inl rfl, fun h => ⟨h, Int.le_refl _⟩, rfl⟩
    intro b'
    by_cases hi : cfg.slot b' = i
    · simp only [BlockManager.block, BlockManager.blocks, Striped.get, hi, Function.update_self,
        Dict.get_erase]
      by_cases hb : b' = b <;> simp [hb]
    · left
      simp [BlockManager.block, BlockManager.blocks, Striped.get, hi]

theorem release (m : BlockManager cfg) (size : Nat) : Shrunk m (m.release size) :=
  ⟨fun _ => Or.inl rfl, fun _ => Or.inl rfl,
    fun h => by simp only [BlockManager.release]; omega, rfl⟩

theorem dropKey? (m : BlockManager cfg) (key : Option κ) (b : BlockId) :
    Shrunk m (m.dropKey? key b) := by
  have hblock : (m.dropKey? key b).block = m.block := BlockManager.block_congr (by simp)
  refine ⟨fun b' => Or.inl (congrFun hblock b'), fun k => ?_, fun h => by simpa using h, by simp⟩
  rw [BlockManager.bound_dropKey?]
  split
  · exact Or.inr rfl
  · exact Or.inl rfl

theorem takeVictims (needed : Nat) (i : Fin cfg.stripeCount) (cands : List BlockId)
    (m : BlockManager cfg) (freed : Nat) :
    Shrunk m (BlockManager.takeVictims needed i cands m freed).1 :=
  BlockManager.takeVictims_induction needed i (fun m' b h => h.trans (popFrom m' i b)) cands m freed
    (refl m)

theorem freeWith (m : BlockManager cfg) (drop : Bool) (b : BlockId) :
    Shrunk m (m.freeWith drop b).1 := by
  have hpop := popFrom m (cfg.slot b) b
  unfold BlockManager.freeWith
  cases heq : m.popFrom (cfg.slot b) b with
  | mk m' popped =>
    rw [heq] at hpop
    cases popped with
    | none => exact refl m
    | some e =>
      have hrelease := hpop.trans (release m' e.size)
      cases drop with
      | true => exact hrelease.trans (dropKey? _ e.key b)
      | false => exact hrelease

end Shrunk

/-- The counter is above every block, and the quota is not negative. -/
structure Sane (m : BlockManager cfg) : Prop where
  reserved : 0 ≤ m.reservedBytes
  unused : ∀ b, m.idCounter ≤ b → m.block b = none

theorem sane_init (cfg : Settings κ) : Sane (BlockManager.init cfg) :=
  ⟨Int.le_refl _, fun _ _ => rfl⟩

theorem Sane.shrunk {m m' : BlockManager cfg} (h : Sane m) (hs : Shrunk m m') : Sane m' where
  reserved := (hs.reserved h.reserved).1
  unused := by
    intro b hb
    rw [hs.idCounter] at hb
    rcases hs.block b with heq | heq
    · rw [heq]
      exact h.unused b hb
    · exact heq

theorem Sane.reserve {m : BlockManager cfg} (h : Sane m) (size : Nat) :
    Sane ({ m with reservedBytes := m.reservedBytes + size } : BlockManager cfg) :=
  ⟨Int.add_nonneg h.reserved (Int.natCast_nonneg size), h.unused⟩

theorem block_insert (m : BlockManager cfg) (e : Entry κ) (b : BlockId) :
    (m.nextId.insertBlock m.idCounter e).block b
      = if b = m.idCounter then some e else m.block b := by
  rw [BlockManager.block, BlockManager.blocks_insertBlock, Striped.get_set]
  rfl

theorem Sane.insert {m : BlockManager cfg} (h : Sane m) (e : Entry κ) :
    Sane (m.nextId.insertBlock m.idCounter e) where
  reserved := h.reserved
  unused := by
    intro b hb
    have hcounter : (m.nextId.insertBlock m.idCounter e).idCounter = m.idCounter + 1 := rfl
    rw [hcounter] at hb
    have hlt : m.idCounter < b := Int.add_one_le_iff.mp hb
    rw [block_insert, if_neg (ne_of_gt hlt)]
    exact h.unused b (le_of_lt hlt)

theorem Sane.bindKey {m : BlockManager cfg} (h : Sane m) (k : κ) (b : BlockId) :
    Sane (m.bindKey k b).1 :=
  ⟨h.reserved, h.unused⟩

theorem Sane.place {m : BlockManager cfg} (h : Sane m) (r : StoreReq κ) : Sane (m.place r).1 := by
  have hinsert := h.insert r.entry
  unfold BlockManager.place
  cases r.key with
  | none => exact hinsert
  | some k =>
    have hbind := hinsert.bindKey k m.idCounter
    simp only
    split
    · rename_i m₂ heq
      rw [heq] at hbind
      exact hbind
    · rename_i m₂ previous heq
      rw [heq] at hbind
      split
      · exact hbind.shrunk (.freeWith m₂ false previous)
      · exact hbind

end Shrunk

namespace AnyKey

variable {κ : Type} [DecidableEq κ] {cfg : Settings (KeyObject κ)}

theorem releaseVictims_shrunk (vs : List (Victim (KeyObject κ))) :
    ∀ m : BlockManager cfg, Shrunk m (releaseVictims m vs).1 := by
  induction vs with
  | nil =>
    intro m
    exact .refl m
  | cons v vs ih =>
    intro m
    unfold releaseVictims
    split
    · exact .release m v.size
    · exact ((Shrunk.release m v.size).trans (.dropKey? _ v.key v.bid)).trans (ih _)

theorem evictFrom_shrunk (sh : Shuffles cfg.stripeCount) (needed : Nat)
    (order : List (Fin cfg.stripeCount)) :
    ∀ (m : BlockManager cfg) (freed : Nat), Shrunk m (evictFrom sh needed order m freed).1 := by
  induction order with
  | nil =>
    intro m freed
    exact .refl m
  | cons i rest ih =>
    intro m freed
    have hstripe : Shrunk m (m.evictStripe sh needed i freed).1 :=
      .takeVictims needed i _ m freed
    cases hx : m.evictStripe sh needed i freed with
    | mk m' r =>
      obtain ⟨freed', victims⟩ := r
      rw [hx] at hstripe
      have hreleased := hstripe.trans (releaseVictims_shrunk victims m')
      cases hv : releaseVictims m' victims with
      | mk m'' raised =>
        rw [hv] at hreleased
        cases raised with
        | some text =>
          simp only [evictFrom, hx, hv]
          exact hreleased
        | none =>
          simp only [evictFrom, hx, hv]
          split
          · exact hreleased
          · exact hreleased.trans (ih m'' freed')

/-- Quota that was not granted leaves the store shrunk; quota that was
granted comes on top of that. -/
theorem acquire_shrunk (m : BlockManager cfg) (sh : Shuffles cfg.stripeCount) (size : Nat) :
    ((acquire m sh size).2 ≠ .ok () → Shrunk m (acquire m sh size).1) ∧
      ((acquire m sh size).2 = .ok () → ∃ m₀, Shrunk m m₀ ∧
        (acquire m sh size).1 = { m₀ with reservedBytes := m₀.reservedBytes + size }) := by
  unfold acquire
  obtain ⟨hres, _⟩ | ⟨m', hres, _, rfl⟩ := m.reserve_cases size
  · rw [hres]
    have hevict := evictFrom_shrunk sh size sh.order m 0
    simp only [evictToFree]
    cases hx : evictFrom sh size sh.order m 0 with
    | mk m₂ freed =>
      rw [hx] at hevict
      cases freed with
      | error text => exact ⟨fun _ => hevict, by simp⟩
      | ok freed =>
        simp only
        obtain ⟨hres', _⟩ | ⟨m₃, hres', _, rfl⟩ := m₂.reserve_cases size
        · rw [hres']
          exact ⟨fun _ => hevict, by simp⟩
        · rw [hres']
          exact ⟨by simp, fun _ => ⟨m₂, hevict, rfl⟩⟩
  · rw [hres]
    exact ⟨by simp, fun _ => ⟨m, .refl m, rfl⟩⟩

theorem Sane.acquire {m : BlockManager cfg} (h : Sane m) (sh : Shuffles cfg.stripeCount)
    (size : Nat) : Sane (acquire m sh size).1 := by
  obtain ⟨hfail, hok⟩ := acquire_shrunk m sh size
  by_cases hres : (AnyKey.acquire m sh size).2 = .ok ()
  · obtain ⟨m₀, hshrunk, heq⟩ := hok hres
    rw [heq]
    exact (h.shrunk hshrunk).reserve size
  · exact h.shrunk (hfail hres)

/-- The quota was granted, and then the key could not be hashed. -/
def Strands (m : BlockManager cfg) (sh : Shuffles cfg.stripeCount)
    (r : StoreReq (KeyObject κ)) : Prop :=
  r.size ≤ Config.maxBlockSize ∧ (acquire m sh r.size).2 = .ok () ∧ hashError r.key ≠ none

/-- A store that raises leaves the store shrunk, unless its key raised
when the block was in its stripe. -/
theorem store_failed {m : BlockManager cfg} {sh : Shuffles cfg.stripeCount}
    {r : StoreReq (KeyObject κ)} {e : StoreFailure} (he : (store m sh r).2 = .error e)
    (hkey : ¬ Strands m sh r) : Shrunk m (store m sh r).1 := by
  obtain ⟨hfail, _⟩ := acquire_shrunk m sh r.size
  unfold store at he ⊢
  by_cases hsize : r.size > Config.maxBlockSize
  · rw [if_pos hsize]
    exact .refl m
  · rw [if_neg hsize] at he ⊢
    cases hacq : acquire m sh r.size with
    | mk m₁ res =>
      rw [hacq] at hfail
      simp only [hacq] at he ⊢
      cases res with
      | error e' => exact hfail (by simp)
      | ok u =>
        cases hr : hashError r.key with
        | some text =>
          exact absurd ⟨Nat.le_of_not_lt hsize, by rw [hacq], by rw [hr]; simp⟩ hkey
        | none => simp [hr] at he

/-- A store that strands raises, with the block in its stripe. -/
theorem store_strands {m : BlockManager cfg} {sh : Shuffles cfg.stripeCount}
    {r : StoreReq (KeyObject κ)} (h : Strands m sh r) :
    (∃ text, hashError r.key = some text ∧ (store m sh r).2 = .error (.unhashable text)) ∧
      (store m sh r).1.block m.idCounter = some r.entry := by
  obtain ⟨hsize, hok, hkey⟩ := h
  obtain ⟨text, htext⟩ := Option.ne_none_iff_exists'.mp hkey
  obtain ⟨m₀, hshrunk, heq⟩ := (acquire_shrunk m sh r.size).2 hok
  have hcounter : (acquire m sh r.size).1.idCounter = m.idCounter := by
    rw [heq]
    exact hshrunk.idCounter
  unfold store
  rw [if_neg (Nat.not_lt.mpr hsize)]
  cases hacq : acquire m sh r.size with
  | mk m₁ res =>
    rw [hacq] at hok hcounter
    simp only at hok hcounter
    subst hok
    simp only [htext]
    refine ⟨⟨text, rfl, rfl⟩, ?_⟩
    rw [block_insert, hcounter, if_pos rfl]

theorem Sane.store {m : BlockManager cfg} (h : Sane m) (sh : Shuffles cfg.stripeCount)
    (r : StoreReq (KeyObject κ)) : Sane (store m sh r).1 := by
  have hacquire := Sane.acquire h sh r.size
  unfold AnyKey.store
  split
  · exact h
  · cases hacq : AnyKey.acquire m sh r.size with
    | mk m₁ res =>
      rw [hacq] at hacquire
      cases res with
      | error e => exact hacquire
      | ok u =>
        simp only
        split
        · exact Blocks.Sane.insert hacquire r.entry
        · exact Blocks.Sane.place hacquire r

theorem free_shrunk (m : BlockManager cfg) (b : BlockId) : Shrunk m (free m b).1 := by
  have hpop := Shrunk.popFrom m (cfg.slot b) b
  unfold free
  cases heq : m.popFrom (cfg.slot b) b with
  | mk m₁ popped =>
    rw [heq] at hpop
    cases popped with
    | none => exact .refl m
    | some e =>
      have hrelease := hpop.trans (.release m₁ e.size)
      simp only
      split
      · exact hrelease
      · exact hrelease.trans (.dropKey? _ e.key b)

theorem Sane.free {m : BlockManager cfg} (h : Sane m) (b : BlockId) : Sane (free m b).1 :=
  h.shrunk (free_shrunk m b)

end AnyKey

/-! ## §4 What is kept -/

section Kept

variable {κ : Type} [DecidableEq κ] {cfg : Settings κ}

/-- Blocks from before are as they were, or gone. -/
structure Kept (m m' : BlockManager cfg) : Prop where
  block : ∀ b, b < m.idCounter → m'.block b = m.block b ∨ m'.block b = none
  idCounter : m.idCounter ≤ m'.idCounter

namespace Kept

theorem refl (m : BlockManager cfg) : Kept m m := ⟨fun _ _ => Or.inl rfl, Int.le_refl _⟩

theorem trans {m₁ m₂ m₃ : BlockManager cfg} (h : Kept m₁ m₂) (h' : Kept m₂ m₃) : Kept m₁ m₃ where
  block := by
    intro b hb
    rcases h'.block b (Int.lt_of_lt_of_le hb h.idCounter) with heq | hgone
    · rw [heq]
      exact h.block b hb
    · exact Or.inr hgone
  idCounter := Int.le_trans h.idCounter h'.idCounter

theorem of_shrunk {m m' : BlockManager cfg} (h : Shrunk m m') : Kept m m' :=
  ⟨fun b _ => h.block b, Int.le_of_eq h.idCounter.symm⟩

theorem insert (m : BlockManager cfg) (e : Entry κ) : Kept m (m.nextId.insertBlock m.idCounter e) where
  block := by
    intro b hb
    rw [block_insert, if_neg (ne_of_lt hb)]
    exact Or.inl rfl
  idCounter := Int.le_of_lt (Int.lt_succ m.idCounter)

end Kept

theorem block_freeWith_of_ne (m : BlockManager cfg) (drop : Bool) {b b' : BlockId} (h : b' ≠ b) :
    (m.freeWith drop b).1.block b' = m.block b' := by
  have hpop : (m.popFrom (cfg.slot b) b).1.block b' = m.block b' := by
    obtain ⟨_, heq⟩ | ⟨e, _, heq⟩ := m.popFrom_cases (cfg.slot b) b
    · rw [heq]
    · rw [heq]
      by_cases hi : cfg.slot b' = cfg.slot b
      · simp [BlockManager.block, BlockManager.blocks, Striped.get, hi, Dict.get_erase, h]
      · simp [BlockManager.block, BlockManager.blocks, Striped.get, hi]
  unfold BlockManager.freeWith
  cases heq : m.popFrom (cfg.slot b) b with
  | mk m' popped =>
    rw [heq] at hpop
    cases popped with
    | none => rfl
    | some e =>
      cases drop with
      | true =>
        have hdrop : ((m'.release e.size).dropKey? e.key b).block = m'.block :=
          BlockManager.block_congr (by simp [BlockManager.release])
        exact (congrFun hdrop b').trans hpop
      | false => exact hpop

/-- A placed block has the counter as its id, and is there. -/
theorem place_spec (m : BlockManager cfg) (r : StoreReq κ) :
    (m.place r).2 = m.idCounter ∧ (m.place r).1.idCounter = m.idCounter + 1 ∧
      (m.place r).1.block m.idCounter = some r.entry ∧ Kept m (m.place r).1 := by
  have hinsert := Kept.insert m r.entry
  have hblock : (m.nextId.insertBlock m.idCounter r.entry).block m.idCounter = some r.entry := by
    rw [block_insert, if_pos rfl]
  unfold BlockManager.place
  cases r.key with
  | none => exact ⟨rfl, rfl, hblock, hinsert⟩
  | some k =>
    -- binding the key leaves the blocks and the counter alone
    generalize hm₂ : (m.nextId.insertBlock m.idCounter r.entry).bindKey k m.idCounter = bound
    have hblock₂ : bound.1.block m.idCounter = some r.entry := by
      rw [← hm₂]
      exact hblock
    have hcounter₂ : bound.1.idCounter = m.idCounter + 1 := by
      rw [← hm₂]
      rfl
    have hkept₂ : Kept m bound.1 := by
      rw [← hm₂]
      exact ⟨hinsert.block, hinsert.idCounter⟩
    obtain ⟨m₂, previous⟩ := bound
    cases previous with
    | none =>
      simp only [hm₂]
      exact ⟨trivial, hcounter₂, hblock₂, hkept₂⟩
    | some previous =>
      simp only [hm₂]
      split
      · rename_i hne
        have hshrunk := Shrunk.freeWith m₂ false previous
        refine ⟨rfl, hshrunk.idCounter.trans hcounter₂, ?_, hkept₂.trans (.of_shrunk hshrunk)⟩
        rw [block_freeWith_of_ne m₂ false (Ne.symm hne)]
        exact hblock₂
      · exact ⟨rfl, hcounter₂, hblock₂, hkept₂⟩

end Kept

namespace AnyKey

variable {κ : Type} [DecidableEq κ] {cfg : Settings (KeyObject κ)}

theorem acquire_kept (m : BlockManager cfg) (sh : Shuffles cfg.stripeCount) (size : Nat) :
    Kept m (acquire m sh size).1 := by
  obtain ⟨hfail, hok⟩ := acquire_shrunk m sh size
  by_cases hres : (acquire m sh size).2 = .ok ()
  · obtain ⟨m₀, hshrunk, heq⟩ := hok hres
    rw [heq]
    exact ⟨fun b _ => hshrunk.block b, Int.le_of_eq hshrunk.idCounter.symm⟩
  · exact .of_shrunk (hfail hres)

theorem store_kept (m : BlockManager cfg) (sh : Shuffles cfg.stripeCount)
    (r : StoreReq (KeyObject κ)) : Kept m (store m sh r).1 := by
  have hacquire := acquire_kept m sh r.size
  unfold store
  split
  · exact .refl m
  · cases hacq : acquire m sh r.size with
    | mk m₁ res =>
      rw [hacq] at hacquire
      cases res with
      | error e => exact hacquire
      | ok u =>
        simp only
        split
        · exact hacquire.trans (.insert m₁ r.entry)
        · exact hacquire.trans (place_spec m₁ r).2.2.2

/-- A store that returns an id has put its block there. -/
theorem store_ok {m : BlockManager cfg} {sh : Shuffles cfg.stripeCount}
    {r : StoreReq (KeyObject κ)} {b : BlockId} (h : (store m sh r).2 = .ok b) :
    r.size ≤ Config.maxBlockSize ∧ (store m sh r).1.block b = some r.entry ∧
      b < (store m sh r).1.idCounter ∧ b = m.idCounter := by
  have hshrunk := (acquire_shrunk m sh r.size).2
  unfold store at h ⊢
  by_cases hsize : r.size > Config.maxBlockSize
  · rw [if_pos hsize] at h
    cases h
  · rw [if_neg hsize] at h ⊢
    refine ⟨Nat.le_of_not_lt hsize, ?_⟩
    cases hacq : acquire m sh r.size with
    | mk m₁ res =>
      rw [hacq] at hshrunk
      simp only [hacq] at h ⊢
      cases res with
      | error e => cases h
      | ok u =>
        simp only at h ⊢
        split at h
        · cases h
        · rename_i hkey
          obtain ⟨hid, hcounter, hblock, -⟩ := place_spec m₁ r
          obtain ⟨m₀, hfree, hm₁⟩ := hshrunk rfl
          have hkept : m₁.idCounter = m.idCounter := by
            rw [show m₁ = _ from hm₁]
            exact hfree.idCounter
          cases h
          rw [hid, hcounter]
          exact ⟨hblock, Int.lt_succ _, hkept⟩

/-- The states of a store after more calls. `free_by_key` is a `free`. -/
inductive Later (m : BlockManager cfg) : BlockManager cfg → Prop where
  | refl : Later m m
  | store {m' : BlockManager cfg} (sh : Shuffles cfg.stripeCount) (r : StoreReq (KeyObject κ)) :
      Later m m' → Later m (store m' sh r).1
  | free {m' : BlockManager cfg} (b : BlockId) : Later m m' → Later m (free m' b).1

theorem Later.kept {m m' : BlockManager cfg} (h : Later m m') : Kept m m' := by
  induction h with
  | refl => exact .refl m
  | store sh r _ ih => exact ih.trans (store_kept _ sh r)
  | free b _ ih => exact ih.trans (.of_shrunk (free_shrunk _ b))

end AnyKey

end Memnode.Blocks
