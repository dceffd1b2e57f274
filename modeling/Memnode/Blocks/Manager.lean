/-
Memnode.Blocks.Manager — the block store of `blocks.py`.

The store keeps its blocks in `stripeCount` stripes chosen by block id
and its key index in as many key stripes chosen by key hash. Each
`async with lock` body of the source is one function here (`reserve`,
`release`, `insertBlock`, `bindKey`, `popFrom`, `dropKey`,
`evictStripe`), because no such body awaits: it is the unit of
interleaving. The public calls `store`, `load`, `loadByKey`, `free` and
`freeByKey` are those sections in the order the source runs them when
nothing else runs; `Blocks.Tasks` runs the same sections interleaved.

`random.shuffle` is an input: `Shuffles` carries one order of the
stripes and one order of the candidates of each stripe, each with the
proof that it is a permutation. A statement for every `Shuffles` holds
for every random choice of one `_evict_to_free` call.

Left out: `last_access` and the log lines, which nothing reads.
-/
import Mathlib.Data.List.FinRange
import Memnode.Config
import Memnode.Lib.Striped

namespace Memnode.Blocks

open Lib

/-! ## Data -/

/-- Block ids come from a counter; callers may name any integer. -/
abbrev BlockId := Int

inductive Durability where
  | pinned
  | cache
  deriving DecidableEq, Repr

/-- `_Entry`. -/
structure Entry (κ : Type) where
  data : Bytes
  durability : Durability
  key : Option κ
  deriving DecidableEq, Repr

def Entry.size {κ : Type} (e : Entry κ) : Nat := e.data.length

/-- `_Stripe`: a shard of the block map with its own byte counter. -/
structure Stripe (κ : Type) where
  blocks : Dict BlockId (Entry κ)
  usedBytes : Int

/-- `_KeyStripe`. -/
structure KeyStripe (κ : Type) where
  index : Dict κ BlockId

/-- The constructor arguments of `BlockManager`, and the hash function
of the running interpreter. `stripeCount_pos` is the check that raises
`ValueError("stripe_count must be >= 1")`. -/
structure Settings (κ : Type) where
  maxMemoryBytes : Nat
  stripeCount : Nat
  stripeCount_pos : 0 < stripeCount
  hash : κ → Int

/-- `i % self.stripe_count`, as an index. -/
def Settings.slot {κ : Type} (cfg : Settings κ) (i : Int) : Fin cfg.stripeCount :=
  ⟨(i % cfg.stripeCount).toNat, by
    have hpos : (0 : Int) < cfg.stripeCount := by exact_mod_cast cfg.stripeCount_pos
    have h0 := Int.emod_nonneg i (ne_of_gt hpos)
    have h1 := Int.emod_lt_of_pos i hpos
    omega⟩

/-- The key stripe of a key. -/
def Settings.keySlot {κ : Type} (cfg : Settings κ) (k : κ) : Fin cfg.stripeCount :=
  cfg.slot (cfg.hash k)

structure BlockManager {κ : Type} (cfg : Settings κ) where
  stripes : Fin cfg.stripeCount → Stripe κ
  keyStripes : Fin cfg.stripeCount → KeyStripe κ
  reservedBytes : Int
  idCounter : BlockId

inductive StoreError where
  | blockTooLarge (size : Nat)
  | outOfMemory (size : Nat) (used : Int) (max freed : Nat)
  deriving DecidableEq, Repr

/-- `str(e)`. -/
def StoreError.message : StoreError → String
  | .blockTooLarge size =>
      s!"block of {size} bytes exceeds MAX_BLOCK_SIZE={Config.maxBlockSize}; " ++
        "use streaming/chunked upload for larger payloads"
  | .outOfMemory size used max freed =>
      s!"cannot store {size} bytes: used={used}, max={max}, eviction freed only {freed}"

/-- The random choices of one `_evict_to_free` call. -/
structure Shuffles (n : Nat) where
  order : List (Fin n)
  order_perm : order.Perm (List.finRange n)
  candidates : Fin n → List BlockId → List BlockId
  candidates_perm : ∀ i l, (candidates i l).Perm l

/-- The choice that shuffles nothing. -/
def Shuffles.identity (n : Nat) : Shuffles n where
  order := List.finRange n
  order_perm := List.Perm.refl _
  candidates := fun _ l => l
  candidates_perm := fun _ l => List.Perm.refl l

/-- One evicted block, as `victims` records it. -/
structure Victim (κ : Type) where
  bid : BlockId
  size : Nat
  key : Option κ

/-- The arguments of a `store` call. -/
structure StoreReq (κ : Type) where
  data : Bytes
  durability : Durability
  key : Option κ

def StoreReq.size {κ : Type} (r : StoreReq κ) : Nat := r.data.length

def StoreReq.entry {κ : Type} (r : StoreReq κ) : Entry κ := ⟨r.data, r.durability, r.key⟩

@[simp] theorem StoreReq.size_entry {κ : Type} (r : StoreReq κ) : r.entry.size = r.size := rfl

/-- A call of the public API. -/
inductive Call (κ : Type) where
  | store (r : StoreReq κ)
  | load (b : BlockId)
  | loadByKey (k : κ)
  | free (b : BlockId)
  | freeByKey (k : κ)

/-- What a call returns or raises. -/
inductive Outcome where
  | stored (b : BlockId)
  | failed (e : StoreError)
  | loaded (data : Option Bytes)
  | freed (ok : Bool)
  deriving DecidableEq, Repr

def Outcome.ofStore : Except StoreError BlockId → Outcome
  | .ok b => .stored b
  | .error e => .failed e

namespace BlockManager

variable {κ : Type} [DecidableEq κ] {cfg : Settings κ}

/-- `BlockManager.__init__`. -/
def init (cfg : Settings κ) : BlockManager cfg where
  stripes := fun _ => ⟨Dict.empty, 0⟩
  keyStripes := fun _ => ⟨Dict.empty⟩
  reservedBytes := 0
  idCounter := 1

/-- The block table, over all stripes. -/
def blocks (m : BlockManager cfg) : Striped cfg.stripeCount BlockId (Entry κ) :=
  fun i => (m.stripes i).blocks

/-- The key index, over all key stripes. -/
def index (m : BlockManager cfg) : Striped cfg.stripeCount κ BlockId :=
  fun i => (m.keyStripes i).index

/-- The resident block with this id. -/
def block (m : BlockManager cfg) (b : BlockId) : Option (Entry κ) :=
  Striped.get cfg.slot m.blocks b

/-- The block id the key index holds for a key. -/
def bound (m : BlockManager cfg) (k : κ) : Option BlockId :=
  Striped.get cfg.keySlot m.index k

/-! ## Critical sections -/

/-- `_reserve`. -/
def reserve (m : BlockManager cfg) (size : Nat) : BlockManager cfg × Bool :=
  if m.reservedBytes + size > cfg.maxMemoryBytes then (m, false)
  else ({ m with reservedBytes := m.reservedBytes + size }, true)

/-- `_release`. -/
def release (m : BlockManager cfg) (size : Nat) : BlockManager cfg :=
  { m with reservedBytes := max 0 (m.reservedBytes - size) }

/-- `next(self._id_counter)`: the manager after it. The id is the
counter before. -/
def nextId (m : BlockManager cfg) : BlockManager cfg :=
  { m with idCounter := m.idCounter + 1 }

/-- `store`, under the stripe lock. -/
def insertBlock (m : BlockManager cfg) (b : BlockId) (e : Entry κ) : BlockManager cfg :=
  { m with
    stripes := Function.update m.stripes (cfg.slot b)
      ⟨(m.stripes (cfg.slot b)).blocks.set b e, (m.stripes (cfg.slot b)).usedBytes + e.size⟩ }

/-- `store`, under the key lock: bind the key and return the previous binding. -/
def bindKey (m : BlockManager cfg) (k : κ) (b : BlockId) : BlockManager cfg × Option BlockId :=
  ({ m with
      keyStripes := Function.update m.keyStripes (cfg.keySlot k)
        ⟨(m.keyStripes (cfg.keySlot k)).index.set k b⟩ },
    (m.keyStripes (cfg.keySlot k)).index.get k)

/-- Pop one block out of stripe `i`, as `free` and the eviction loop do
under the stripe lock. -/
def popFrom (m : BlockManager cfg) (i : Fin cfg.stripeCount) (b : BlockId) :
    BlockManager cfg × Option (Entry κ) :=
  match (m.stripes i).blocks.get b with
  | none => (m, none)
  | some e =>
      ({ m with
          stripes := Function.update m.stripes i
            ⟨(m.stripes i).blocks.erase b, (m.stripes i).usedBytes - e.size⟩ },
        some e)

/-- Drop a key's binding if it still names block `b`, under the key lock. -/
def dropKey (m : BlockManager cfg) (k : κ) (b : BlockId) : BlockManager cfg :=
  if (m.keyStripes (cfg.keySlot k)).index.get k = some b then
    { m with
      keyStripes := Function.update m.keyStripes (cfg.keySlot k)
        ⟨(m.keyStripes (cfg.keySlot k)).index.erase k⟩ }
  else m

/-- `dropKey` for a key that may be absent. -/
def dropKey? (m : BlockManager cfg) (key : Option κ) (b : BlockId) : BlockManager cfg :=
  match key with
  | none => m
  | some k => m.dropKey k b

/-- The CACHE blocks of a stripe. -/
def cacheIds (m : BlockManager cfg) (i : Fin cfg.stripeCount) : List BlockId :=
  ((m.stripes i).blocks.entries.filter (fun p => p.2.durability = .cache)).map Prod.fst

/-- The victim loop over one stripe's candidates. It stops as soon as
what was freed so far would make room. -/
def takeVictims (needed : Nat) (i : Fin cfg.stripeCount) :
    List BlockId → BlockManager cfg → Nat → BlockManager cfg × Nat × List (Victim κ)
  | [], m, freed => (m, freed, [])
  | b :: rest, m, freed =>
      match m.popFrom i b with
      | (_, none) => takeVictims needed i rest m freed
      | (m', some e) =>
          if m'.reservedBytes - (freed + e.size : Nat) + needed ≤ cfg.maxMemoryBytes then
            (m', freed + e.size, [⟨b, e.size, e.key⟩])
          else
            let (m'', freed', vs) := takeVictims needed i rest m' (freed + e.size)
            (m'', freed', ⟨b, e.size, e.key⟩ :: vs)

/-- `_evict_to_free`, under one stripe lock. -/
def evictStripe (m : BlockManager cfg) (sh : Shuffles cfg.stripeCount) (needed : Nat)
    (i : Fin cfg.stripeCount) (freed : Nat) : BlockManager cfg × Nat × List (Victim κ) :=
  takeVictims needed i (sh.candidates i (m.cacheIds i)) m freed

/-- The test that ends the stripe loop of `_evict_to_free`. -/
def hasRoom (m : BlockManager cfg) (needed : Nat) : Bool :=
  m.reservedBytes + needed ≤ cfg.maxMemoryBytes

/-! ## The calls, run alone -/

/-- `_evict_to_free`: release the victims of one stripe, one by one. -/
def releaseVictims (m : BlockManager cfg) : List (Victim κ) → BlockManager cfg
  | [] => m
  | v :: vs => ((m.release v.size).dropKey? v.key v.bid).releaseVictims vs

/-- `_evict_to_free`: the loop over the stripes. -/
def evictFrom (sh : Shuffles cfg.stripeCount) (needed : Nat) :
    List (Fin cfg.stripeCount) → BlockManager cfg → Nat → BlockManager cfg × Nat
  | [], m, freed => (m, freed)
  | i :: rest, m, freed =>
      let (m', freed', victims) := m.evictStripe sh needed i freed
      let m'' := m'.releaseVictims victims
      if m''.hasRoom needed then (m'', freed') else evictFrom sh needed rest m'' freed'

/-- `_evict_to_free`. -/
def evictToFree (m : BlockManager cfg) (sh : Shuffles cfg.stripeCount) (needed : Nat) :
    BlockManager cfg × Nat :=
  evictFrom sh needed sh.order m 0

/-- `store`, first part: get `size` bytes of quota, evicting if needed. -/
def acquire (m : BlockManager cfg) (sh : Shuffles cfg.stripeCount) (size : Nat) :
    BlockManager cfg × Except StoreError Unit :=
  match m.reserve size with
  | (m₁, true) => (m₁, .ok ())
  | (m₁, false) =>
      let (m₂, freed) := m₁.evictToFree sh size
      match m₂.reserve size with
      | (m₃, true) => (m₃, .ok ())
      | (m₃, false) =>
          (m₃, .error (.outOfMemory size m₃.reservedBytes cfg.maxMemoryBytes freed))

/-- `free`, with its `_drop_key` argument. -/
def freeWith (m : BlockManager cfg) (drop : Bool) (b : BlockId) : BlockManager cfg × Bool :=
  match m.popFrom (cfg.slot b) b with
  | (_, none) => (m, false)
  | (m₁, some e) =>
      let m₂ := m₁.release e.size
      (if drop then m₂.dropKey? e.key b else m₂, true)

/-- `free`, as the API calls it. -/
def free (m : BlockManager cfg) (b : BlockId) : BlockManager cfg × Bool := m.freeWith true b

/-- `store`, second part: insert the block and bind its key. -/
def place (m : BlockManager cfg) (r : StoreReq κ) : BlockManager cfg × BlockId :=
  let b := m.idCounter
  let m₁ := m.nextId.insertBlock b r.entry
  match r.key with
  | none => (m₁, b)
  | some k =>
      match m₁.bindKey k b with
      | (m₂, none) => (m₂, b)
      | (m₂, some previous) =>
          if previous ≠ b then ((m₂.freeWith false previous).1, b) else (m₂, b)

/-- `store`. -/
def store (m : BlockManager cfg) (sh : Shuffles cfg.stripeCount) (r : StoreReq κ) :
    BlockManager cfg × Except StoreError BlockId :=
  if r.size > Config.maxBlockSize then (m, .error (.blockTooLarge r.size))
  else
    match m.acquire sh r.size with
    | (m₁, .error e) => (m₁, .error e)
    | (m₁, .ok ()) => let (m₂, b) := m₁.place r; (m₂, .ok b)

/-- `load`. -/
def load (m : BlockManager cfg) (b : BlockId) : Option Bytes :=
  (m.block b).map Entry.data

/-- `load_by_key`. -/
def loadByKey (m : BlockManager cfg) (k : κ) : Option Bytes :=
  match m.bound k with
  | none => none
  | some b => m.load b

/-- `free_by_key`. -/
def freeByKey (m : BlockManager cfg) (k : κ) : BlockManager cfg × Bool :=
  match m.bound k with
  | none => (m, false)
  | some b => m.free b

/-- One completed call. -/
def exec (m : BlockManager cfg) (sh : Shuffles cfg.stripeCount) :
    Call κ → BlockManager cfg × Outcome
  | .store r => let (m', res) := m.store sh r; (m', .ofStore res)
  | .load b => (m, .loaded (m.load b))
  | .loadByKey k => (m, .loaded (m.loadByKey k))
  | .free b => let (m', ok) := m.free b; (m', .freed ok)
  | .freeByKey k => let (m', ok) := m.freeByKey k; (m', .freed ok)

/-- The dictionary `stats` returns. -/
structure Stats where
  usedBytes : Int
  maxBytes : Nat
  freeBytes : Int
  blockCount : Nat
  stripes : Nat
  deriving DecidableEq, Repr

/-- A total over the resident blocks of all stripes. -/
def totalOf (m : BlockManager cfg) (f : Entry κ → Nat) : Nat :=
  Striped.sumBy m.blocks (fun _ e => f e)

/-- The number of resident blocks. -/
def blockCount (m : BlockManager cfg) : Nat := m.totalOf (fun _ => 1)

/-- The total length of the resident blocks. -/
def residentBytes (m : BlockManager cfg) : Nat := m.totalOf Entry.size

/-- `stats`. -/
def stats (m : BlockManager cfg) : Stats where
  usedBytes := m.reservedBytes
  maxBytes := cfg.maxMemoryBytes
  freeBytes := cfg.maxMemoryBytes - m.reservedBytes
  blockCount := m.blockCount
  stripes := cfg.stripeCount

end BlockManager

end Memnode.Blocks
