/-
Memnode.Blocks.Eviction — what `_evict_to_free` takes out.

A store that finds no room evicts CACHE blocks stripe by stripe. The
victim loop of a stripe tests `_reserved_bytes - freed + needed`, where
`freed` counts the victims of all stripes so far, while those of the
earlier stripes have already been taken off `_reserved_bytes`. They are
counted twice, so from the second stripe on the loop can stop before the
room is there, and no stripe is visited again.

  §1 the bytes of a stripe and of the whole store, by class;
  §2 what the double count comes to (`taken`): stripes are emptied up to
     the first in which twice the bytes before it and its own cover what
     is missing; that one is emptied until they do, and from every later
     stripe one block is taken;
  §3 one stripe of the loop takes that much of it;
  §4 `eviction_complete_iff`: a store raises OutOfMemory exactly when the
     blocks taken do not cover what is missing;
  §5 the same of stores that hold keys without a hash (`acquire_iff`),
     whose quota may count blocks that are gone (`Owing`).
-/
import Memnode.Blocks.AnyKey
import Memnode.Blocks.Refinement

namespace Memnode.Blocks

open Lib

section Bytes

variable {κ : Type}

/-! ## §1 Bytes by class -/

/-- The size of a PINNED block, 0 for a CACHE block. -/
def Entry.pinnedSize (e : Entry κ) : Nat := if e.durability = .pinned then e.size else 0

/-- The size of a CACHE block, 0 for a PINNED block. -/
def Entry.cacheSize (e : Entry κ) : Nat := if e.durability = .cache then e.size else 0

theorem Entry.size_eq (e : Entry κ) : e.size = e.pinnedSize + e.cacheSize := by
  unfold pinnedSize cacheSize
  cases e.durability <;> simp

namespace BlockManager

variable {cfg : Settings κ}

/-- The total size of the resident PINNED blocks. -/
def pinnedBytes (m : BlockManager cfg) : Nat := m.totalOf Entry.pinnedSize

/-- The total size of the resident CACHE blocks. -/
def cacheBytes (m : BlockManager cfg) : Nat := m.totalOf Entry.cacheSize

/-- The total size of the CACHE blocks of one stripe. -/
def cacheIn (m : BlockManager cfg) (i : Fin cfg.stripeCount) : Nat :=
  (m.stripes i).blocks.sumBy (fun _ e => e.cacheSize)

theorem residentBytes_eq (m : BlockManager cfg) :
    m.residentBytes = m.pinnedBytes + m.cacheBytes := by
  simp only [residentBytes, pinnedBytes, cacheBytes, totalOf, Striped.sumBy, Dict.sumBy,
    ← Finset.sum_add_distrib, ← List.sum_map_add, Entry.size_eq]

/-- The CACHE bytes, stripe by stripe, in any order of the stripes. -/
theorem cacheBytes_eq (m : BlockManager cfg) {order : List (Fin cfg.stripeCount)}
    (h : order.Perm (List.finRange cfg.stripeCount)) :
    m.cacheBytes = (order.map m.cacheIn).sum := by
  rw [(h.map m.cacheIn).sum_eq, ← List.ofFn_eq_map, List.sum_ofFn]
  rfl

/-- The bytes a store of `needed` bytes lacks. -/
def deficit (m : BlockManager cfg) (needed : Nat) : Nat :=
  (m.reservedBytes + needed - cfg.maxMemoryBytes).toNat

theorem hasRoom_iff (m : BlockManager cfg) (needed : Nat) :
    m.hasRoom needed = true ↔ m.deficit needed = 0 := by
  simp only [hasRoom, deficit, decide_eq_true_eq]
  omega

end BlockManager

/-! ## §2 What is taken -/

/-- The size of all victims. -/
def totalSize (vs : List (Victim κ)) : Nat := (vs.map Victim.size).sum

@[simp] theorem totalSize_nil : totalSize ([] : List (Victim κ)) = 0 := rfl

@[simp] theorem totalSize_cons (v : Victim κ) (vs : List (Victim κ)) :
    totalSize (v :: vs) = v.size + totalSize vs := by simp [totalSize]

@[simp] theorem totalSize_append (vs ws : List (Victim κ)) :
    totalSize (vs ++ ws) = totalSize vs + totalSize ws := by simp [totalSize]

/-- The shortest beginning of `need` bytes, with one block at least. -/
def covering (need : Nat) : List (Victim κ) → List (Victim κ)
  | [] => []
  | v :: vs => if need ≤ v.size then [v] else v :: covering (need - v.size) vs

/-- What is taken from stripes with these CACHE blocks, after `before`
bytes of other stripes, when `missing` bytes were missing at first. -/
def taken (missing : Nat) : Nat → List (List (Victim κ)) → List (List (Victim κ))
  | _, [] => []
  | before, s :: rest =>
      if 2 * before + totalSize s < missing then s :: taken missing (before + totalSize s) rest
      else covering (missing - 2 * before) s :: rest.map (covering 0)

theorem covering_of_lt {need : Nat} {vs : List (Victim κ)} (h : totalSize vs < need) :
    covering need vs = vs := by
  induction vs generalizing need with
  | nil => rfl
  | cons v vs ih =>
    rw [totalSize_cons] at h
    rw [covering, if_neg (by omega), ih (by omega)]

theorem le_totalSize_covering {need : Nat} (vs : List (Victim κ)) (h : need ≤ totalSize vs) :
    need ≤ totalSize (covering need vs) := by
  induction vs generalizing need with
  | nil => exact h
  | cons v vs ih =>
    rw [totalSize_cons] at h
    unfold covering
    split
    · rename_i hle
      simpa using hle
    · have : need - v.size ≤ _ := ih (by omega)
      rw [totalSize_cons]
      omega

theorem totalSize_covering_le (need : Nat) (vs : List (Victim κ)) :
    totalSize (covering need vs) ≤ totalSize vs := by
  induction vs generalizing need with
  | nil => exact Nat.le_refl 0
  | cons v vs ih =>
    unfold covering
    split
    · simp
    · have := ih (need - v.size)
      simp only [totalSize_cons]
      omega

/-- Once the double count is covered, one block of each stripe is taken. -/
theorem taken_of_le {missing before : Nat} (h : missing ≤ 2 * before)
    (l : List (List (Victim κ))) : taken missing before l = l.map (covering 0) := by
  cases l with
  | nil => rfl
  | cons s rest =>
    rw [taken, if_neg (by omega), Nat.sub_eq_zero_of_le h, List.map_cons]

/-- Stripe by stripe: each gives what covers the double count. -/
theorem taken_cons (missing before : Nat) (s : List (Victim κ)) (rest : List (List (Victim κ))) :
    taken missing before (s :: rest)
      = covering (missing - 2 * before) s
        :: taken missing (before + totalSize (covering (missing - 2 * before) s)) rest := by
  rw [taken]
  split
  · rw [covering_of_lt (by omega)]
  · have hle := le_totalSize_covering s (show missing - 2 * before ≤ _ by omega)
    rw [taken_of_le (by omega)]

theorem totalSize_taken_le (missing before : Nat) (l : List (List (Victim κ))) :
    totalSize (taken missing before l).flatten ≤ totalSize l.flatten := by
  induction l generalizing before with
  | nil => exact Nat.le_refl 0
  | cons s rest ih =>
    have hs := totalSize_covering_le (missing - 2 * before) s
    have hrest := ih (before + totalSize (covering (missing - 2 * before) s))
    rw [taken_cons]
    simp only [List.flatten_cons, totalSize_append]
    omega

/-- Stripes without CACHE bytes give none. -/
theorem taken_of_zero {missing : Nat} (hmissing : 0 < missing) {l : List (List (Victim κ))}
    (h : ∀ s ∈ l, totalSize s = 0) (rest : List (List (Victim κ))) :
    totalSize (taken missing 0 (l ++ rest)).flatten = totalSize (taken missing 0 rest).flatten := by
  induction l with
  | nil => rfl
  | cons s l ih =>
    have hs := h s List.mem_cons_self
    rw [List.cons_append, taken, if_pos (by omega), List.flatten_cons, totalSize_append, hs,
      Nat.zero_add, Nat.zero_add]
    exact ih (fun s' hs' => h s' (List.mem_cons_of_mem s hs'))

/-- One stripe alone is enough if it covers what is missing. -/
theorem le_taken_of_single {missing : Nat} (hmissing : 0 < missing) {l : List (List (Victim κ))}
    (h : ∀ s ∈ l, totalSize s = 0) {s : List (Victim κ)} (hs : missing ≤ totalSize s)
    (rest : List (List (Victim κ))) :
    missing ≤ totalSize (taken missing 0 (l ++ s :: rest)).flatten := by
  have hle := le_totalSize_covering _ hs
  rw [taken_of_zero hmissing h, taken_cons, List.flatten_cons, totalSize_append]
  simp only [Nat.mul_zero, Nat.sub_zero]
  omega

end Bytes

/-! ## §3 One stripe -/

section Stripe

variable {κ : Type} {cfg : Settings κ}

namespace BlockManager

/-- The blocks of stripe `i` among these, as victims. -/
def victimsAmong (m : BlockManager cfg) (i : Fin cfg.stripeCount) (cands : List BlockId) :
    List (Victim κ) :=
  cands.filterMap (fun b => ((m.stripes i).blocks.get b).map (fun e => ⟨b, e.size, e.key⟩))

/-- The CACHE blocks of stripe `i`, in the order in which they are tried. -/
def candidatesIn (m : BlockManager cfg) (sh : Shuffles cfg.stripeCount) (i : Fin cfg.stripeCount) :
    List (Victim κ) := m.victimsAmong i (sh.candidates i (m.cacheIds i))

theorem candidates_nodup (m : BlockManager cfg) (sh : Shuffles cfg.stripeCount)
    (i : Fin cfg.stripeCount) : (sh.candidates i (m.cacheIds i)).Nodup := by
  rw [(sh.candidates_perm i _).nodup_iff, cacheIds]
  exact (m.stripes i).blocks.nodup.sublist (List.Sublist.map _ List.filter_sublist)

/-- The CACHE bytes of a stripe are those of its candidates. -/
theorem totalSize_candidatesIn (m : BlockManager cfg) (sh : Shuffles cfg.stripeCount)
    (i : Fin cfg.stripeCount) : totalSize (m.candidatesIn sh i) = m.cacheIn i := by
  have hperm : (m.candidatesIn sh i).Perm (m.victimsAmong i (m.cacheIds i)) :=
    (sh.candidates_perm i _).filterMap _
  have hentries : m.victimsAmong i (m.cacheIds i)
      = ((m.stripes i).blocks.entries.filter (fun p => p.2.durability = .cache)).map
          (fun p => ⟨p.1, p.2.size, p.2.key⟩) := by
    rw [victimsAmong, cacheIds, List.filterMap_map, ← List.filterMap_eq_map]
    refine List.filterMap_congr (fun p hp => ?_)
    have hget := (Dict.get_eq_some_iff _ _ _).mpr (List.mem_of_mem_filter hp)
    simp [hget]
  rw [totalSize, (hperm.map _).sum_eq, hentries, List.map_map, cacheIn, Dict.sumBy]
  induction (m.stripes i).blocks.entries with
  | nil => rfl
  | cons p rest ih =>
    by_cases hc : p.2.durability = .cache <;> simp_all [Entry.cacheSize]

/-- Other stripes still have their candidates. -/
theorem candidatesIn_congr {m m' : BlockManager cfg} {i : Fin cfg.stripeCount}
    (h : m'.stripes i = m.stripes i) (sh : Shuffles cfg.stripeCount) :
    m'.candidatesIn sh i = m.candidatesIn sh i := by
  simp only [candidatesIn, victimsAmong, cacheIds, h]

/-- The CACHE blocks in the order in which the stripes are visited. -/
def cacheInOrder (m : BlockManager cfg) (sh : Shuffles cfg.stripeCount) : List (List (Victim κ)) :=
  sh.order.map (m.candidatesIn sh)

/-- The blocks a store of `needed` bytes takes out, stripe by stripe. -/
def evicted (m : BlockManager cfg) (sh : Shuffles cfg.stripeCount) (needed : Nat) :
    List (List (Victim κ)) :=
  taken (m.deficit needed) 0 (m.cacheInOrder sh)

/-- All CACHE bytes, in the order in which they are visited. -/
theorem totalSize_cacheInOrder (m : BlockManager cfg) (sh : Shuffles cfg.stripeCount) :
    totalSize (m.cacheInOrder sh).flatten = m.cacheBytes := by
  rw [m.cacheBytes_eq sh.order_perm, cacheInOrder]
  induction sh.order with
  | nil => rfl
  | cons i rest ih =>
    rw [List.map_cons, List.flatten_cons, totalSize_append, ih, List.map_cons, List.sum_cons,
      m.totalSize_candidatesIn]

/-- What is missing beyond the CACHE bytes is missing beyond the PINNED bytes. -/
theorem deficit_eq {m : BlockManager cfg} (h : Books m 0 0) (needed : Nat) :
    m.deficit needed = m.pinnedBytes + m.cacheBytes + needed - cfg.maxMemoryBytes := by
  have hres := h.reserved
  rw [residentBytes_eq] at hres
  rw [deficit]
  omega

/-- One stripe with all CACHE bytes gives what is missing. -/
theorem le_evicted_of_single {m : BlockManager cfg} (sh : Shuffles cfg.stripeCount) {needed : Nat}
    {i : Fin cfg.stripeCount} (hother : ∀ j, j ≠ i → m.cacheIn j = 0)
    (hle : m.deficit needed ≤ m.cacheBytes) :
    m.deficit needed ≤ totalSize (m.evicted sh needed).flatten := by
  rcases Nat.eq_zero_or_pos (m.deficit needed) with hzero | hpos
  · rw [hzero]
    exact Nat.zero_le _
  · have hmem : i ∈ sh.order := sh.order_perm.mem_iff.mpr (List.mem_finRange i)
    have hnd : sh.order.Nodup := sh.order_perm.nodup_iff.mpr (List.nodup_finRange _)
    obtain ⟨first, rest, horder⟩ := List.append_of_mem hmem
    rw [horder] at hnd
    have hzero : ∀ j, j ≠ i → totalSize (m.candidatesIn sh j) = 0 := by
      intro j hj
      rw [m.totalSize_candidatesIn, hother j hj]
    have hsum : ∀ js : List (Fin cfg.stripeCount), i ∉ js → (js.map m.cacheIn).sum = 0 := by
      intro js hi
      refine List.sum_eq_zero (fun x hx => ?_)
      obtain ⟨j, hj, rfl⟩ := List.mem_map.mp hx
      exact hother j (fun heq => hi (heq ▸ hj))
    have hfirst : i ∉ first := fun h => (List.nodup_append.mp hnd).2.2 i h i List.mem_cons_self rfl
    have hrest : i ∉ rest := (List.nodup_cons.mp (List.nodup_append.mp hnd).2.1).1
    have hall : m.cacheBytes = totalSize (m.candidatesIn sh i) := by
      rw [m.cacheBytes_eq sh.order_perm, horder, List.map_append, List.sum_append, List.map_cons,
        List.sum_cons, hsum first hfirst, hsum rest hrest, m.totalSize_candidatesIn, Nat.zero_add,
        Nat.add_zero]
    rw [evicted, cacheInOrder, horder, List.map_append, List.map_cons]
    refine le_taken_of_single hpos (fun s hs => ?_) (hall ▸ hle) _
    obtain ⟨j, hj, rfl⟩ := List.mem_map.mp hs
    exact hzero j (fun heq => hfirst (heq ▸ hj))

variable [DecidableEq κ]

/-- The victim loop takes what covers its test. -/
theorem takeVictims_eq (needed : Nat) (i : Fin cfg.stripeCount) (cands : List BlockId)
    (hnd : cands.Nodup) : ∀ (m : BlockManager cfg) (freed : Nat),
    (takeVictims needed i cands m freed).2.2
      = covering (m.deficit needed - freed) (m.victimsAmong i cands) := by
  induction cands with
  | nil => intro m freed; rfl
  | cons b rest ih =>
    intro m freed
    obtain ⟨hb, hnd'⟩ := List.nodup_cons.mp hnd
    rcases m.popFrom_cases i b with ⟨hg, heq⟩ | ⟨e, hg, heq⟩
    · simp only [takeVictims, heq, victimsAmong, List.filterMap_cons, hg, Option.map_none]
      exact ih hnd' m freed
    · generalize hm₁ : ({ m with
          stripes := Function.update m.stripes i
            ⟨(m.stripes i).blocks.erase b, (m.stripes i).usedBytes - e.size⟩ } :
          BlockManager cfg) = m₁ at heq
      have hdeficit : m₁.deficit needed = m.deficit needed := by rw [← hm₁]; rfl
      have hrest : m₁.victimsAmong i rest = m.victimsAmong i rest := by
        refine List.filterMap_congr (fun b' hb' => ?_)
        have hne : b' ≠ b := fun heq => hb (heq ▸ hb')
        rw [← hm₁]
        simp [Dict.get_erase, hne]
      have hhead : m.victimsAmong i (b :: rest) = ⟨b, e.size, e.key⟩ :: m.victimsAmong i rest := by
        simp [victimsAmong, hg]
      have hstop : m₁.reservedBytes - (freed + e.size : Nat) + needed ≤ cfg.maxMemoryBytes ↔
          m.deficit needed - freed ≤ e.size := by
        rw [← hdeficit, deficit]
        omega
      rw [hhead, covering]
      simp only [takeVictims, heq, hstop]
      split
      · rfl
      · simp only [List.cons.injEq, true_and]
        rw [ih hnd' m₁ (freed + e.size), hdeficit, hrest, Nat.sub_sub]

/-- One stripe of `_evict_to_free`, when `missing` bytes were missing at
first and `freed` have been released: it takes what covers the double
count. -/
theorem evictStripe_taken {m : BlockManager cfg} {owed missing freed needed : Nat}
    (h : Books m owed 0) (hmissing : m.deficit needed = missing - freed)
    (sh : Shuffles cfg.stripeCount) (i : Fin cfg.stripeCount) :
    let t := covering (missing - 2 * freed) (m.candidatesIn sh i)
    (m.evictStripe sh needed i freed).2.1 = freed + totalSize t ∧
      (m.evictStripe sh needed i freed).2.2 = t ∧
      (∀ j, j ≠ i → (m.evictStripe sh needed i freed).1.stripes j = m.stripes j) ∧
      (m.evictStripe sh needed i freed).1.reservedBytes = m.reservedBytes ∧
      Books (m.evictStripe sh needed i freed).1 (totalSize t + owed) 0 := by
  intro t
  have hvictims : (m.evictStripe sh needed i freed).2.2 = t := by
    rw [evictStripe, takeVictims_eq needed i _ (m.candidates_nodup sh i), hmissing, Nat.sub_sub,
      ← Nat.two_mul]
    rfl
  have hbooks := Books.takeVictims needed i (sh.candidates i (m.cacheIds i)) m owed freed h
  have hfreed := (m.evictStripe_popped sh needed i freed).2
  rw [hvictims] at hfreed
  refine ⟨hfreed, hvictims, ?_, ?_, ?_⟩
  · intro j hj
    exact takeVictims_induction (P := fun m' => m'.stripes j = m.stripes j) needed i
      (fun m' b h' => by
        rcases m'.popFrom_cases i b with ⟨_, heq⟩ | ⟨e, _, heq⟩ <;> rw [heq]
        · exact h'
        · simpa [hj] using h') _ m freed rfl
  · exact takeVictims_induction (P := fun m' => m'.reservedBytes = m.reservedBytes) needed i
      (fun m' b h' => (reservedBytes_popFrom m' i b).trans h') _ m freed rfl
  · rw [← hvictims]
    exact hbooks

/-- The victims are released, and no other stripe was touched. -/
theorem releaseVictims_taken {m : BlockManager cfg} {owed : Nat} (vs : List (Victim κ))
    (h : Books m (totalSize vs + owed) 0) :
    Books (m.releaseVictims vs) owed 0 ∧
      (m.releaseVictims vs).reservedBytes = m.reservedBytes - totalSize vs := by
  induction vs generalizing m with
  | nil => exact ⟨by simpa [releaseVictims] using h, by simp [releaseVictims]⟩
  | cons v vs ih =>
    rw [totalSize_cons, Nat.add_assoc] at h
    have hrelease := h.release
    have hreserved := h.reserved
    have hdrop : Books ((m.release v.size).dropKey? v.key v.bid) (totalSize vs + owed) 0 :=
      hrelease.congr (by simp) (by simp) (by simp)
    obtain ⟨hbooks, heq⟩ := ih hdrop
    refine ⟨hbooks, ?_⟩
    rw [releaseVictims, heq, reservedBytes_dropKey?, totalSize_cons]
    simp only [release]
    push_cast at hreserved ⊢
    omega

end BlockManager

end Stripe

/-! ## §4 Stores that fail -/

section Complete

variable {κ : Type} [DecidableEq κ] {cfg : Settings κ}

namespace BlockManager

/-- After one stripe and its releases. -/
theorem afterStripe_taken {m : BlockManager cfg} {owed missing freed needed : Nat}
    (h : Books m owed 0) (hmissing : m.deficit needed = missing - freed) (hlt : freed < missing)
    (sh : Shuffles cfg.stripeCount) (i : Fin cfg.stripeCount) :
    let t := covering (missing - 2 * freed) (m.candidatesIn sh i)
    let m' := (m.evictStripe sh needed i freed).1.releaseVictims t
    Books m' owed 0 ∧ m'.deficit needed = missing - (freed + totalSize t) ∧
      ∀ rest : List (Fin cfg.stripeCount), i ∉ rest →
        rest.map (m'.candidatesIn sh) = rest.map (m.candidatesIn sh) := by
  intro t m'
  obtain ⟨-, -, hother, hreserved, hbooks⟩ := evictStripe_taken h hmissing sh i
  obtain ⟨hbooks', hreserved'⟩ := releaseVictims_taken t hbooks
  refine ⟨hbooks', ?_, fun rest hi => List.map_congr_left (fun j hj => candidatesIn_congr ?_ sh)⟩
  · rw [deficit] at hmissing ⊢
    rw [hreserved', hreserved]
    omega
  · rw [stripes_releaseVictims]
    exact hother j (fun heq => hi (heq ▸ hj))

/-- The loop over the stripes leaves no room exactly when the blocks it
takes do not cover what is missing. -/
theorem evictFrom_hasRoom (sh : Shuffles cfg.stripeCount) {needed missing : Nat}
    (order : List (Fin cfg.stripeCount)) :
    ∀ {m : BlockManager cfg} {freed : Nat}, Books m 0 0 → order.Nodup →
      m.deficit needed = missing - freed → freed < missing →
      ((evictFrom sh needed order m freed).1.hasRoom needed = true ↔
        missing ≤ freed + totalSize (taken missing freed (order.map (m.candidatesIn sh))).flatten) := by
  induction order with
  | nil =>
    intro m freed h _ hmissing hlt
    rw [evictFrom, hasRoom_iff]
    simp only [List.map_nil, taken, List.flatten_nil, totalSize_nil]
    omega
  | cons i rest ih =>
    intro m freed h hnd hmissing hlt
    obtain ⟨hi, hnd'⟩ := List.nodup_cons.mp hnd
    obtain ⟨hfreed, hvictims, -⟩ := evictStripe_taken h hmissing sh i
    obtain ⟨hbooks, hdeficit, hrest⟩ := afterStripe_taken h hmissing hlt sh i
    have hcons : evictFrom sh needed (i :: rest) m freed
        = if ((m.evictStripe sh needed i freed).1.releaseVictims
              (m.evictStripe sh needed i freed).2.2).hasRoom needed then
            ((m.evictStripe sh needed i freed).1.releaseVictims
              (m.evictStripe sh needed i freed).2.2, (m.evictStripe sh needed i freed).2.1)
          else evictFrom sh needed rest ((m.evictStripe sh needed i freed).1.releaseVictims
            (m.evictStripe sh needed i freed).2.2) (m.evictStripe sh needed i freed).2.1 := rfl
    rw [hcons, hfreed, hvictims, List.map_cons, taken_cons, List.flatten_cons, totalSize_append]
    split
    · rename_i hroom
      rw [hasRoom_iff, hdeficit] at hroom
      rw [hasRoom_iff, hdeficit]
      omega
    · rename_i hroom
      rw [hasRoom_iff, hdeficit] at hroom
      rw [ih hbooks hnd' hdeficit (by omega), hrest rest hi, Nat.add_assoc]

/-- The store raises `OutOfMemory`. -/
def RaisesOutOfMemory (m : BlockManager cfg) (sh : Shuffles cfg.stripeCount) (r : StoreReq κ) :
    Prop :=
  ∃ size used max freed, (m.store sh r).2 = .error (.outOfMemory size used max freed)

/-- `_reserve`, `_evict_to_free`, `_reserve` fail exactly when there is no
room after the eviction. -/
theorem raisesOutOfMemory_iff {m : BlockManager cfg} {sh : Shuffles cfg.stripeCount}
    {r : StoreReq κ} (hsize : r.size ≤ Config.maxBlockSize) :
    m.RaisesOutOfMemory sh r ↔
      m.hasRoom r.size = false ∧ (m.evictToFree sh r.size).1.hasRoom r.size = false := by
  have hsize' : ¬ r.size > Config.maxBlockSize := Nat.not_lt.mpr hsize
  unfold RaisesOutOfMemory store
  rw [if_neg hsize']
  rcases m.reserve_cases r.size with ⟨heq, hgt⟩ | ⟨m₁, heq, hle, _⟩
  · have hno : m.hasRoom r.size = false := by
      simp only [hasRoom, decide_eq_false_iff_not]
      omega
    rcases (m.evictToFree sh r.size).1.reserve_cases r.size
      with ⟨heq', hgt'⟩ | ⟨m₂, heq', hle', _⟩
    · have hno' : (m.evictToFree sh r.size).1.hasRoom r.size = false := by
        simp only [hasRoom, decide_eq_false_iff_not]
        omega
      simp only [acquire, heq, heq', hno, hno', and_self, iff_true]
      exact ⟨_, _, _, _, rfl⟩
    · have hyes : (m.evictToFree sh r.size).1.hasRoom r.size = true := by
        simpa only [hasRoom, decide_eq_true_eq] using hle'
      simp [acquire, heq, heq', hyes]
  · have hyes : m.hasRoom r.size = true := by
      simpa only [hasRoom, decide_eq_true_eq] using hle
    simp [acquire, heq, hyes]

theorem raisesOutOfMemory_iff_evicted {m : BlockManager cfg} (h : Books m 0 0)
    (sh : Shuffles cfg.stripeCount) {r : StoreReq κ} (hsize : r.size ≤ Config.maxBlockSize) :
    m.RaisesOutOfMemory sh r ↔ totalSize (m.evicted sh r.size).flatten < m.deficit r.size := by
  rw [raisesOutOfMemory_iff hsize]
  by_cases hroom : m.hasRoom r.size = true
  · rw [(m.hasRoom_iff r.size).mp hroom]
    simp [hroom]
  · have hpos : 0 < m.deficit r.size := Nat.pos_of_ne_zero (mt (m.hasRoom_iff r.size).mpr hroom)
    have hloop := evictFrom_hasRoom sh sh.order h (sh.order_perm.nodup_iff.mpr (List.nodup_finRange _))
      (Nat.sub_zero _).symm hpos
    rw [Nat.zero_add] at hloop
    rw [Bool.eq_false_iff, Bool.eq_false_iff, evictToFree, Ne, Ne, hloop, Nat.not_le]
    exact and_iff_right hroom

end BlockManager

/-- **When eviction is complete.** In every state that completed calls
lead to, for every stripe count and all random orders, a store within
the block size raises OutOfMemory exactly when the CACHE blocks that
`taken` names do not cover what is missing. So it raises exactly when
the PINNED bytes and its own size exceed the quota, unless these fit and
the blocks taken do not cover what is missing. They do when one stripe
holds all CACHE bytes. -/
theorem eviction_complete_iff (cfg : Settings κ) (xs : List (Shuffles cfg.stripeCount × Call κ))
    (sh : Shuffles cfg.stripeCount) (r : StoreReq κ) (hsize : r.size ≤ Config.maxBlockSize) :
    let m := final (BlockManager.init cfg) xs
    let missing := m.pinnedBytes + m.cacheBytes + r.size - cfg.maxMemoryBytes
    let gone := totalSize (taken missing 0 (m.cacheInOrder sh)).flatten
    (m.RaisesOutOfMemory sh r ↔ gone < missing) ∧
      ((m.RaisesOutOfMemory sh r ↔ cfg.maxMemoryBytes < m.pinnedBytes + r.size) ↔
        cfg.maxMemoryBytes < m.pinnedBytes + r.size ∨ missing ≤ gone) ∧
      (∀ i, (∀ j, j ≠ i → m.cacheIn j = 0) →
        (m.RaisesOutOfMemory sh r ↔ cfg.maxMemoryBytes < m.pinnedBytes + r.size)) := by
  intro m missing gone
  have hbooks := (final_consistent (BlockManager.consistent_init cfg) xs).books
  have hmissing : m.deficit r.size = missing := BlockManager.deficit_eq hbooks r.size
  have hgone : totalSize (m.evicted sh r.size).flatten = gone := by
    rw [BlockManager.evicted, hmissing]
  have hiff := BlockManager.raisesOutOfMemory_iff_evicted hbooks sh hsize
  rw [hmissing, hgone] at hiff
  have hle : gone ≤ m.cacheBytes := by
    rw [← m.totalSize_cacheInOrder sh]
    exact totalSize_taken_le missing 0 _
  have hclaim : (m.RaisesOutOfMemory sh r ↔ cfg.maxMemoryBytes < m.pinnedBytes + r.size) ↔
      cfg.maxMemoryBytes < m.pinnedBytes + r.size ∨ missing ≤ gone := by
    rw [hiff]
    omega
  refine ⟨hiff, hclaim, fun i hother => hclaim.mpr ?_⟩
  by_cases hfits : missing ≤ m.cacheBytes
  · have hsingle := BlockManager.le_evicted_of_single sh hother (hmissing.trans_le hfits)
    rw [hmissing, hgone] at hsingle
    exact Or.inr hsingle
  · exact Or.inl (by omega)

end Complete

/-- Two stripes and room for three bytes. -/
def twoStripes : Settings Nat := ⟨3, 2, Nat.two_pos, fun k => k⟩

/-- Three CACHE blocks of one byte: blocks 1 and 3 in one stripe, block 2
in the other. -/
def threeCacheBlocks : List (Shuffles twoStripes.stripeCount × Call Nat) :=
  List.replicate 3 (Shuffles.identity _, .store ⟨[7], .cache, none⟩)

/-- The quota is full of CACHE blocks, and a store of two bytes finds them. -/
theorem eviction_complete_iff_twoBytes :
    (2 : Nat) ≤ Config.maxBlockSize ∧
      ¬ (final (BlockManager.init twoStripes) threeCacheBlocks).RaisesOutOfMemory
        (Shuffles.identity _) ⟨[1, 2], .pinned, none⟩ := by
  refine ⟨by decide, ?_⟩
  rw [(eviction_complete_iff twoStripes threeCacheBlocks (Shuffles.identity _)
    ⟨[1, 2], .pinned, none⟩ (by decide)).1]
  decide

/-- A store of three bytes into the same manager. The first stripe gives
up block 2; in the second the loop counts that byte again, stops after
block 1, and leaves block 3. -/
theorem eviction_stops_early :
    (final (BlockManager.init twoStripes) threeCacheBlocks).RaisesOutOfMemory
        (Shuffles.identity _) ⟨[1, 2, 3], .pinned, none⟩ ∧
      (final (BlockManager.init twoStripes) threeCacheBlocks).pinnedBytes + 3
        ≤ twoStripes.maxMemoryBytes ∧ (3 : Nat) ≤ Config.maxBlockSize :=
  ⟨⟨_, _, _, _, rfl⟩, by decide, by decide⟩

/-! ## §5 Keys without a hash -/

section AnyKeys

variable {κ : Type} [DecidableEq κ] {cfg : Settings (KeyObject κ)}

/-- The blocks that are taken out before there is room. -/
def untilRoom {α : Type} (missing : Nat) : Nat → List (List (Victim α)) → List (Victim α)
  | _, [] => []
  | before, t :: ts =>
      if missing ≤ before then [] else t ++ untilRoom missing (before + totalSize t) ts

namespace AnyKey

/-- The blocks taken cover what is missing, and those that are taken out
before there is room have keys with a hash. -/
def MakesRoom (m : BlockManager cfg) (sh : Shuffles cfg.stripeCount) (size : Nat) : Prop :=
  m.deficit size ≤ totalSize (m.evicted sh size).flatten ∧
    ∀ v ∈ untilRoom (m.deficit size) 0 (m.evicted sh size), hashError v.key = none

/-- They do not cover it, and all have keys with a hash. -/
def IsFull (m : BlockManager cfg) (sh : Shuffles cfg.stripeCount) (size : Nat) : Prop :=
  totalSize (m.evicted sh size).flatten < m.deficit size ∧
    ∀ v ∈ (m.evicted sh size).flatten, hashError v.key = none

theorem releaseVictims_raises {vs : List (Victim (KeyObject κ))}
    (h : ¬∀ v ∈ vs, hashError v.key = none) (m : BlockManager cfg) :
    ∃ text, (releaseVictims m vs).2 = some text := by
  induction vs generalizing m with
  | nil => exact absurd (by simp) h
  | cons v vs ih =>
    cases hv : hashError v.key with
    | some text => exact ⟨text, by simp only [releaseVictims, hv]⟩
    | none =>
      simp only [releaseVictims, hv]
      refine ih (fun hall => h (fun w hw => ?_)) _
      rcases List.mem_cons.mp hw with rfl | hw
      · exact hv
      · exact hall w hw

/-- What the loop over the stripes comes to: it ends with room, it ends
without, or it raises. -/
theorem evictFrom_result (sh : Shuffles cfg.stripeCount) {needed missing owed : Nat}
    (order : List (Fin cfg.stripeCount)) :
    ∀ {m : BlockManager cfg} {freed : Nat}, Books m owed 0 → order.Nodup →
      m.deficit needed = missing - freed → freed < missing →
      let ts := taken missing freed (order.map (m.candidatesIn sh))
      ((∃ m' f, evictFrom sh needed order m freed = (m', .ok f) ∧ m'.hasRoom needed = true) ↔
        missing ≤ freed + totalSize ts.flatten ∧
          ∀ v ∈ untilRoom missing freed ts, hashError v.key = none) ∧
      ((∃ m' f, evictFrom sh needed order m freed = (m', .ok f) ∧ m'.hasRoom needed = false) ↔
        freed + totalSize ts.flatten < missing ∧ ∀ v ∈ ts.flatten, hashError v.key = none) := by
  induction order with
  | nil =>
    intro m freed h _ hmissing hlt
    have hroom : m.hasRoom needed = false := by
      rw [Bool.eq_false_iff, Ne, BlockManager.hasRoom_iff]
      omega
    simp only [evictFrom, List.map_nil, taken, List.flatten_nil, totalSize_nil, untilRoom,
      Prod.mk.injEq, Except.ok.injEq]
    refine ⟨iff_of_false ?_ (by omega), iff_of_true ⟨m, freed, ⟨rfl, rfl⟩, hroom⟩ ⟨by omega, by simp⟩⟩
    rintro ⟨m', f, ⟨rfl, -⟩, hyes⟩
    rw [hroom] at hyes
    cases hyes
  | cons i rest ih =>
    intro m freed h hnd hmissing hlt
    obtain ⟨hi, hnd'⟩ := List.nodup_cons.mp hnd
    obtain ⟨hfreed, hvictims, -⟩ := BlockManager.evictStripe_taken h hmissing sh i
    obtain ⟨hbooks, hdeficit, hrest⟩ := BlockManager.afterStripe_taken h hmissing hlt sh i
    simp only [List.map_cons, taken_cons, List.flatten_cons, totalSize_append, untilRoom,
      if_neg (Nat.not_le.mpr hlt), List.mem_append, or_imp, forall_and]
    generalize ht : covering (missing - 2 * freed) (m.candidatesIn sh i) = t at *
    by_cases hall : ∀ v ∈ t, hashError v.key = none
    · have hcons : evictFrom sh needed (i :: rest) m freed
          = if ((m.evictStripe sh needed i freed).1.releaseVictims t).hasRoom needed then
              ((m.evictStripe sh needed i freed).1.releaseVictims t, .ok (freed + totalSize t))
            else evictFrom sh needed rest ((m.evictStripe sh needed i freed).1.releaseVictims t)
              (freed + totalSize t) := by
        simp only [evictFrom, hvictims, hfreed, releaseVictims_eq _ hall]
      rw [hcons]
      by_cases hroom : ((m.evictStripe sh needed i freed).1.releaseVictims t).hasRoom needed = true
      · have hle := hroom
        rw [BlockManager.hasRoom_iff, hdeficit] at hle
        have hnone : ∀ ts : List (List (Victim (KeyObject κ))),
            untilRoom missing (freed + totalSize t) ts = [] := by
          intro ts
          cases ts with
          | nil => rfl
          | cons t' ts => rw [untilRoom, if_pos (by omega)]
        rw [if_pos hroom]
        refine ⟨iff_of_true ⟨_, _, rfl, hroom⟩ ⟨by omega, hall, by simp [hnone]⟩,
          iff_of_false ?_ (by omega)⟩
        rintro ⟨m', f, heq, hno⟩
        cases heq
        rw [hroom] at hno
        cases hno
      · have hlt' : freed + totalSize t < missing := by
          rw [BlockManager.hasRoom_iff, hdeficit] at hroom
          omega
        obtain ⟨hyes, hno⟩ := ih hbooks hnd' hdeficit hlt'
        rw [if_neg hroom, hyes, hno, hrest rest hi, Nat.add_assoc]
        exact ⟨and_congr_right (fun _ => (and_iff_right hall).symm),
          and_congr_right (fun _ => (and_iff_right hall).symm)⟩
    · obtain ⟨text, htext⟩ := releaseVictims_raises hall (m.evictStripe sh needed i freed).1
      have hraised : (evictFrom sh needed (i :: rest) m freed).2 = .error text := by
        simp only [evictFrom, hvictims]
        cases hr : releaseVictims (m.evictStripe sh needed i freed).1 t with
        | mk m' raised =>
          rw [hr] at htext
          simp only at htext
          rw [htext]
      refine ⟨iff_of_false ?_ (fun h => hall h.2.1), iff_of_false ?_ (fun h => hall h.2.1)⟩ <;>
      · rintro ⟨m', f, heq, -⟩
        rw [heq] at hraised
        cases hraised

/-- The quota counts the resident blocks, and maybe some that are gone. -/
def Owing (m : BlockManager cfg) : Prop := ∃ owed, Books m owed 0

theorem owing_releaseVictims {vs : List (Victim (KeyObject κ))} :
    ∀ {m : BlockManager cfg} {owed : Nat}, Books m (totalSize vs + owed) 0 →
      Owing (releaseVictims m vs).1 := by
  induction vs with
  | nil =>
    intro m owed h
    exact ⟨_, h⟩
  | cons v vs ih =>
    intro m owed h
    rw [totalSize_cons, Nat.add_assoc] at h
    unfold releaseVictims
    split
    · exact ⟨_, h.release⟩
    · exact ih (h.release.congr (by simp) (by simp) (by simp))

theorem Owing.evictFrom (sh : Shuffles cfg.stripeCount) (needed : Nat)
    (order : List (Fin cfg.stripeCount)) :
    ∀ {m : BlockManager cfg} (freed : Nat), Owing m → Owing (evictFrom sh needed order m freed).1 := by
  induction order with
  | nil =>
    intro m freed h
    exact h
  | cons i rest ih =>
    rintro m freed ⟨owed, h⟩
    have hstripe := Books.takeVictims needed i (sh.candidates i (m.cacheIds i)) m owed freed h
    have hreleased := owing_releaseVictims hstripe
    unfold AnyKey.evictFrom
    simp only [BlockManager.evictStripe]
    generalize AnyKey.releaseVictims
      (BlockManager.takeVictims needed i (sh.candidates i (m.cacheIds i)) m freed).1
      (BlockManager.takeVictims needed i (sh.candidates i (m.cacheIds i)) m freed).2.2 = out
      at hreleased
    obtain ⟨m', raised⟩ := out
    cases raised with
    | some text => exact hreleased
    | none =>
      simp only
      split
      · exact hreleased
      · exact ih _ hreleased

theorem Owing.acquire {m : BlockManager cfg} (h : Owing m) (sh : Shuffles cfg.stripeCount)
    (size : Nat) :
    Owing (acquire m sh size).1 ∧
      ((acquire m sh size).2 = .ok () → ∃ owed, Books (acquire m sh size).1 (size + owed) 0) := by
  have hevict := Owing.evictFrom sh size sh.order 0 h
  have hreserve : ∀ {m m' : BlockManager cfg}, Owing m → m.reserve size = (m', true) →
      ∃ owed, Books m' (size + owed) 0 := fun ⟨owed, hb⟩ hres => ⟨owed, hb.reserve hres⟩
  unfold AnyKey.acquire
  obtain ⟨hres, _⟩ | ⟨m', hres, _, _⟩ := m.reserve_cases size
  · simp only [hres, evictToFree]
    generalize AnyKey.evictFrom sh size sh.order m 0 = out at hevict
    obtain ⟨m₂, res⟩ := out
    cases res with
    | error text => exact ⟨hevict, by simp⟩
    | ok freed =>
      obtain ⟨hres', _⟩ | ⟨m₃, hres', _, _⟩ := m₂.reserve_cases size
      · simp only [hres']
        exact ⟨hevict, by simp⟩
      · simp only [hres']
        obtain ⟨owed, hb⟩ := hreserve hevict hres'
        exact ⟨⟨_, hb⟩, fun _ => ⟨owed, hb⟩⟩
  · simp only [hres]
    obtain ⟨owed, hb⟩ := hreserve h hres
    exact ⟨⟨_, hb⟩, fun _ => ⟨owed, hb⟩⟩

theorem Owing.freeWith {m : BlockManager cfg} (h : Owing m) (drop : Bool) (b : BlockId) :
    Owing (m.freeWith drop b).1 := by
  obtain ⟨owed, h⟩ := h
  unfold BlockManager.freeWith
  cases hpop : m.popFrom (cfg.slot b) b with
  | mk m₁ popped =>
    cases popped with
    | none => exact ⟨owed, h⟩
    | some e =>
      have hrelease := (h.popFrom hpop).release
      cases drop with
      | true => exact ⟨owed, hrelease.congr (by simp) (by simp) (by simp)⟩
      | false => exact ⟨owed, hrelease⟩

theorem Owing.free {m : BlockManager cfg} (h : Owing m) (b : BlockId) : Owing (free m b).1 := by
  obtain ⟨owed, h⟩ := h
  unfold AnyKey.free
  cases hpop : m.popFrom (cfg.slot b) b with
  | mk m₁ popped =>
    cases popped with
    | none => exact ⟨owed, h⟩
    | some e =>
      have hrelease := (h.popFrom hpop).release
      simp only
      split
      · exact ⟨owed, hrelease⟩
      · exact ⟨owed, hrelease.congr (by simp) (by simp) (by simp)⟩

theorem Owing.store {m : BlockManager cfg} (h : Owing m) (sh : Shuffles cfg.stripeCount)
    (r : StoreReq (KeyObject κ)) : Owing (store m sh r).1 := by
  obtain ⟨hacquire, hgranted⟩ := Owing.acquire h sh r.size
  unfold AnyKey.store
  split
  · exact h
  · generalize AnyKey.acquire m sh r.size = out at hacquire hgranted
    obtain ⟨m₁, res⟩ := out
    cases res with
    | error e => exact hacquire
    | ok u =>
      obtain ⟨owed, hb⟩ := hgranted rfl
      have hinsert : Books (m₁.nextId.insertBlock m₁.idCounter r.entry) owed 0 :=
        Books.insertBlock (hb.nextId)
      simp only
      split
      · exact ⟨owed, hinsert⟩
      · unfold BlockManager.place
        cases r.key with
        | none => exact ⟨owed, hinsert⟩
        | some k =>
          have hbind := hinsert.bindKey k m₁.idCounter
          simp only
          split
          · rename_i m₂ heq
            rw [heq] at hbind
            exact ⟨owed, hbind⟩
          · rename_i m₂ previous heq
            rw [heq] at hbind
            split
            · exact Owing.freeWith ⟨owed, hbind⟩ false previous
            · exact ⟨owed, hbind⟩

theorem acquire_iff {m : BlockManager cfg} {owed : Nat} (h : Books m owed 0)
    (sh : Shuffles cfg.stripeCount) (size : Nat) :
    ((acquire m sh size).2 = .ok () ↔ MakesRoom m sh size) ∧
      ((∃ used freed, (acquire m sh size).2
          = .error (.refused (.outOfMemory size used cfg.maxMemoryBytes freed))) ↔
        IsFull m sh size) := by
  unfold MakesRoom IsFull acquire
  obtain ⟨hres, hgt⟩ | ⟨m', hres, hle, _⟩ := m.reserve_cases size
  · have hpos : 0 < m.deficit size := by
      rw [BlockManager.deficit]
      omega
    obtain ⟨hyes, hno⟩ := evictFrom_result sh sh.order h
      (sh.order_perm.nodup_iff.mpr (List.nodup_finRange _)) (Nat.sub_zero _).symm hpos
    rw [Nat.zero_add] at hyes hno
    rw [BlockManager.evicted, BlockManager.cacheInOrder, ← hyes, ← hno, hres]
    simp only [evictToFree]
    cases evictFrom sh size sh.order m 0 with
    | mk m₂ res =>
      cases res with
      | error text => simp
      | ok freed =>
        obtain ⟨hres', hgt'⟩ | ⟨m₃, hres', hle', _⟩ := m₂.reserve_cases size
        · have hroom : m₂.hasRoom size = false := by
            simp only [BlockManager.hasRoom, decide_eq_false_iff_not]
            omega
          simp only [hres']
          refine ⟨iff_of_false (by simp) ?_,
            iff_of_true ⟨_, _, rfl⟩ ⟨m₂, freed, rfl, hroom⟩⟩
          rintro ⟨m', f, heq, hyes⟩
          cases heq
          rw [hroom] at hyes
          cases hyes
        · have hroom : m₂.hasRoom size = true := by
            simpa only [BlockManager.hasRoom, decide_eq_true_eq] using hle'
          simp only [hres']
          refine ⟨iff_of_true trivial ⟨m₂, freed, rfl, hroom⟩, iff_of_false (by simp) ?_⟩
          rintro ⟨m', f, heq, hno⟩
          cases heq
          rw [hroom] at hno
          cases hno
  · have hzero : m.deficit size = 0 := by
      rw [BlockManager.deficit]
      omega
    have hnone : ∀ ts : List (List (Victim (KeyObject κ))), untilRoom 0 0 ts = [] := by
      intro ts
      cases ts <;> rfl
    rw [hres, hzero, hnone]
    simp

end AnyKey

end AnyKeys

end Memnode.Blocks
