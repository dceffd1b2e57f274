/-
Memnode.Lib.Dict — insertion-ordered dictionaries.

`Dict κ ν` is a finite map that remembers the order in which its keys
were first inserted: assigning to a present key keeps its position, a
new key goes to the end, and removal keeps the order of the rest. The
`nodup` field is what makes lookup, membership and sums agree, so no
dictionary with two entries for one key can be built.

Every fact below is about `get` and `sumBy`. The sums are the
reason for the module: `sumBy_set_of_none` and `sumBy_erase` say what a
single insertion and a single removal do to a total taken over the
whole dictionary, which is what an accounting invariant needs.
-/
import Mathlib.Data.List.Nodup
import Mathlib.Algebra.Order.BigOperators.Group.List
import Mathlib.Algebra.Order.Ring.Nat

namespace Lib

/-- An insertion-ordered dictionary without duplicate keys. -/
structure Dict (κ ν : Type) where
  entries : List (κ × ν)
  nodup : (entries.map Prod.fst).Nodup

namespace Dict

variable {κ ν : Type} [DecidableEq κ]

/-- The dictionary with no entry. -/
def empty : Dict κ ν := ⟨[], by simp⟩

/-- `d.get(k)`. -/
def get (d : Dict κ ν) (k : κ) : Option ν :=
  (d.entries.find? (fun e => e.1 = k)).map Prod.snd

/-- The keys, in insertion order. -/
def keys (d : Dict κ ν) : List κ := d.entries.map Prod.fst

/-- `len(d)`. -/
def size (d : Dict κ ν) : Nat := d.entries.length

/-- The entries after `d[k] = v`. -/
def setEntries (es : List (κ × ν)) (k : κ) (v : ν) : List (κ × ν) :=
  if k ∈ es.map Prod.fst then es.map (fun e => if e.1 = k then (k, v) else e)
  else es ++ [(k, v)]

theorem setEntries_keys (es : List (κ × ν)) (k : κ) (v : ν) :
    (setEntries es k v).map Prod.fst
      = if k ∈ es.map Prod.fst then es.map Prod.fst else es.map Prod.fst ++ [k] := by
  unfold setEntries
  split
  · rw [List.map_map]
    apply List.map_congr_left
    intro e _
    by_cases he : e.1 = k <;> simp [he]
  · simp

/-- `d[k] = v`. -/
def set (d : Dict κ ν) (k : κ) (v : ν) : Dict κ ν where
  entries := setEntries d.entries k v
  nodup := by
    rw [setEntries_keys]
    split
    · exact d.nodup
    · rename_i hk
      exact List.nodup_append.mpr ⟨d.nodup, by simp, by rintro a ha b hb rfl; simp_all⟩

/-- `d.pop(k, None)`, the dictionary part. -/
def erase (d : Dict κ ν) (k : κ) : Dict κ ν where
  entries := d.entries.filter (fun e => !decide (e.1 = k))
  nodup := d.nodup.sublist (List.filter_sublist.map _)

/-- The same keys, with other values. -/
def map {ν' : Type} (d : Dict κ ν) (f : κ → ν → ν') : Dict κ ν' where
  entries := d.entries.map (fun e => (e.1, f e.1 e.2))
  nodup := by
    rw [List.map_map]
    exact d.nodup

/-- The sum of `f` over all entries. -/
def sumBy {M : Type} [AddCommMonoid M] (d : Dict κ ν) (f : κ → ν → M) : M :=
  (d.entries.map (fun e => f e.1 e.2)).sum

/-! ## Lookup -/

/-- Lookup finds exactly the entries. -/
theorem get_eq_some_iff (d : Dict κ ν) (k : κ) (v : ν) :
    d.get k = some v ↔ (k, v) ∈ d.entries := by
  obtain ⟨es, hnd⟩ := d
  simp only [get]
  induction es with
  | nil => simp
  | cons e rest ih =>
    obtain ⟨k', v'⟩ := e
    simp only [List.map_cons, List.nodup_cons] at hnd
    have ih' := ih hnd.2
    by_cases hk : k' = k
    · subst hk
      have hne : (k', v) ∉ rest := fun hmem => hnd.1 (List.mem_map.mpr ⟨_, hmem, rfl⟩)
      simp [hne, eq_comm]
    · have hk' : ¬ k = k' := fun h => hk h.symm
      simp [hk, hk', ih']

theorem get_eq_none_iff (d : Dict κ ν) (k : κ) : d.get k = none ↔ k ∉ d.keys := by
  constructor
  · intro hn hk
    obtain ⟨⟨k', v⟩, hmem, rfl⟩ := List.mem_map.mp hk
    rw [(d.get_eq_some_iff k' v).mpr hmem] at hn
    cases hn
  · intro hk
    cases hg : d.get k with
    | none => rfl
    | some v =>
      exact absurd (List.mem_map.mpr ⟨_, (d.get_eq_some_iff k v).mp hg, rfl⟩) hk

theorem mem_keys_iff (d : Dict κ ν) (k : κ) : k ∈ d.keys ↔ ∃ v, d.get k = some v := by
  constructor
  · intro hk
    obtain ⟨⟨k', v⟩, hmem, rfl⟩ := List.mem_map.mp hk
    exact ⟨v, (d.get_eq_some_iff k' v).mpr hmem⟩
  · rintro ⟨v, hv⟩
    exact List.mem_map.mpr ⟨_, (d.get_eq_some_iff k v).mp hv, rfl⟩

@[simp] theorem get_empty (k : κ) : (empty : Dict κ ν).get k = none := rfl

theorem mem_setEntries {es : List (κ × ν)} {k k' : κ} {v v' : ν} :
    (k', v') ∈ setEntries es k v ↔ (k' = k ∧ v' = v) ∨ (k' ≠ k ∧ (k', v') ∈ es) := by
  unfold setEntries
  split
  · rename_i hk
    rw [List.mem_map]
    constructor
    · rintro ⟨⟨a, b⟩, hmem, heq⟩
      by_cases ha : a = k
      · simp only [ha, if_true, Prod.mk.injEq] at heq
        exact Or.inl ⟨heq.1.symm, heq.2.symm⟩
      · simp only [ha, if_false, Prod.mk.injEq] at heq
        obtain ⟨rfl, rfl⟩ := heq
        exact Or.inr ⟨ha, hmem⟩
    · rintro (⟨rfl, rfl⟩ | ⟨hne, hmem⟩)
      · obtain ⟨e, he, hek⟩ := List.mem_map.mp hk
        exact ⟨e, he, by simp [hek]⟩
      · exact ⟨_, hmem, by simp [hne]⟩
  · rename_i hk
    simp only [List.mem_append, List.mem_singleton, Prod.mk.injEq]
    constructor
    · rintro (hmem | h)
      · refine Or.inr ⟨?_, hmem⟩
        rintro rfl
        exact hk (List.mem_map.mpr ⟨_, hmem, rfl⟩)
      · exact Or.inl h
    · rintro (h | ⟨_, hmem⟩)
      · exact Or.inr h
      · exact Or.inl hmem

/-- What an assignment does to every lookup. -/
theorem get_set (d : Dict κ ν) (k k' : κ) (v : ν) :
    (d.set k v).get k' = if k' = k then some v else d.get k' := by
  apply Option.ext
  intro v'
  rw [get_eq_some_iff]
  by_cases h : k' = k
  · subst h
    simp [set, mem_setEntries, eq_comm]
  · simp [set, mem_setEntries, h, get_eq_some_iff]

@[simp] theorem get_set_self (d : Dict κ ν) (k : κ) (v : ν) : (d.set k v).get k = some v := by
  simp [get_set]

/-- What a removal does to every lookup. -/
theorem get_erase (d : Dict κ ν) (k k' : κ) :
    (d.erase k).get k' = if k' = k then none else d.get k' := by
  apply Option.ext
  intro v'
  rw [get_eq_some_iff]
  by_cases h : k' = k
  · subst h
    simp [erase]
  · simp [erase, h, get_eq_some_iff]

@[simp] theorem get_erase_self (d : Dict κ ν) (k : κ) : (d.erase k).get k = none := by
  simp [get_erase]

/-! ## Keys -/

omit [DecidableEq κ] in
@[simp] theorem keys_map {ν' : Type} (d : Dict κ ν) (f : κ → ν → ν') : (d.map f).keys = d.keys := by
  simp only [keys, map, List.map_map]
  rfl

theorem keys_set (d : Dict κ ν) (k : κ) (v : ν) :
    (d.set k v).keys = if k ∈ d.keys then d.keys else d.keys ++ [k] := setEntries_keys d.entries k v

/-- A new value leaves a key in its place. -/
theorem keys_set_of_some {d : Dict κ ν} {k : κ} {v : ν} (h : d.get k = some v) (w : ν) :
    (d.set k w).keys = d.keys := by
  rw [keys_set, if_pos ((d.mem_keys_iff k).mpr ⟨v, h⟩)]

theorem keys_erase (d : Dict κ ν) (k : κ) :
    (d.erase k).keys = d.keys.filter (fun k' => !decide (k' = k)) := by
  simp only [keys, erase, List.filter_map]
  rfl

/-! ## Size and sums -/

/-- A new key goes to the end. -/
theorem set_entries_of_none {d : Dict κ ν} {k : κ} (h : d.get k = none) (v : ν) :
    (d.set k v).entries = d.entries ++ [(k, v)] := by
  have hk : k ∉ d.entries.map Prod.fst := (d.get_eq_none_iff k).mp h
  simp [set, setEntries, hk]

theorem sumBy_set_of_none {M : Type} [AddCommMonoid M] {d : Dict κ ν} {k : κ}
    (h : d.get k = none) (v : ν) (f : κ → ν → M) :
    (d.set k v).sumBy f = d.sumBy f + f k v := by
  simp [sumBy, set_entries_of_none h]

/-- Nothing is removed where nothing is. -/
theorem erase_entries_of_none {d : Dict κ ν} {k : κ} (h : d.get k = none) :
    (d.erase k).entries = d.entries := by
  have hk : k ∉ d.entries.map Prod.fst := (d.get_eq_none_iff k).mp h
  refine List.filter_eq_self.mpr fun e he => ?_
  have hne : e.1 ≠ k := fun heq => hk (heq ▸ List.mem_map.mpr ⟨e, he, rfl⟩)
  simpa using hne

/-- A removal takes exactly the removed entry's share out of a sum. -/
theorem sumBy_erase {M : Type} [AddCommMonoid M] {d : Dict κ ν} {k : κ} {v : ν}
    (h : d.get k = some v) (f : κ → ν → M) :
    d.sumBy f = f k v + (d.erase k).sumBy f := by
  have hmem := (d.get_eq_some_iff k v).mp h
  obtain ⟨es, hnd⟩ := d
  simp only [sumBy, erase] at *
  clear h
  induction es with
  | nil => simp at hmem
  | cons e rest ih =>
    obtain ⟨k', v'⟩ := e
    simp only [List.map_cons, List.nodup_cons] at hnd
    by_cases hk : k' = k
    · subst hk
      have hv : v' = v := by
        rcases List.mem_cons.mp hmem with heq | hr
        · exact (Prod.mk.inj heq).2.symm
        · exact absurd (List.mem_map.mpr ⟨_, hr, rfl⟩) hnd.1
      have hrest : rest.filter (fun e => !decide (e.1 = k')) = rest := by
        rw [List.filter_eq_self]
        intro e he
        have : e.1 ≠ k' := fun heq => hnd.1 (heq ▸ List.mem_map.mpr ⟨e, he, rfl⟩)
        simpa using this
      subst hv
      simp [hrest]
    · have hr : (k, v) ∈ rest := by
        rcases List.mem_cons.mp hmem with heq | hr
        · exact absurd (Prod.mk.inj heq).1.symm hk
        · exact hr
      rw [List.filter_cons_of_pos (by simpa using hk)]
      simp only [List.map_cons, List.sum_cons, ih hnd.2 hr]
      exact add_left_comm _ _ _

theorem erase_set (d : Dict κ ν) (k : κ) (v : ν) :
    ((d.set k v).erase k).entries = (d.erase k).entries := by
  simp only [set, erase, setEntries]
  split
  · induction d.entries with
    | nil => rfl
    | cons e rest ih =>
      by_cases he : e.1 = k
      · simp [he, ih]
      · simp [he, ih]
  · simp

/-- What replacing one value does to a total. -/
theorem sumBy_set_of_some {M : Type} [AddCommMonoid M] {d : Dict κ ν} {k : κ} {v : ν}
    (h : d.get k = some v) (w : ν) (f : κ → ν → M) :
    (d.set k w).sumBy f + f k v = d.sumBy f + f k w := by
  have hrest : ((d.set k w).erase k).sumBy f = (d.erase k).sumBy f := by
    simp only [sumBy, erase_set]
  rw [sumBy_erase h f, sumBy_erase (d.get_set_self k w) f, hrest]
  rw [add_comm (f k w), add_comm (f k v)]
  exact add_right_comm _ _ _

theorem sumBy_set_le (d : Dict κ ν) (k : κ) (w : ν) (f : κ → ν → Nat) :
    (d.set k w).sumBy f ≤ d.sumBy f + f k w := by
  cases h : d.get k with
  | none => exact Nat.le_of_eq (sumBy_set_of_none h w f)
  | some v => exact Nat.le.intro (sumBy_set_of_some h w f)

omit [DecidableEq κ] in
theorem sumBy_sublist {d d' : Dict κ ν} (h : d'.entries.Sublist d.entries) (f : κ → ν → Nat) :
    d'.sumBy f ≤ d.sumBy f :=
  List.Sublist.sum_le_sum (h.map _) (fun _ _ => Nat.zero_le _)

theorem sumBy_le_sumBy {d : Dict κ ν} {f g : κ → ν → Nat}
    (h : ∀ k v, d.get k = some v → f k v ≤ g k v) : d.sumBy f ≤ d.sumBy g := by
  refine List.sum_le_sum ?_
  intro e he
  exact h e.1 e.2 ((d.get_eq_some_iff e.1 e.2).mpr he)

omit [DecidableEq κ] in
theorem size_eq_sumBy (d : Dict κ ν) : d.size = d.sumBy (fun _ _ => 1) := by
  simp [size, sumBy]

/-! ## Removing several keys -/

/-- `for k in ks: d.pop(k, None)`. -/
def eraseAll (d : Dict κ ν) (ks : List κ) : Dict κ ν := ks.foldl erase d

/-- What is left are the entries of the other keys, in order. -/
theorem eraseAll_entries (d : Dict κ ν) (ks : List κ) :
    (d.eraseAll ks).entries = d.entries.filter (fun e => decide (e.1 ∉ ks)) := by
  induction ks generalizing d with
  | nil => simp [eraseAll]
  | cons k rest ih =>
    have hstep : d.eraseAll (k :: rest) = (d.erase k).eraseAll rest := rfl
    rw [hstep, ih, erase, List.filter_filter]
    apply List.filter_congr
    intro e _
    simp only [List.mem_cons, not_or, Bool.decide_and, decide_not]
    rw [Bool.and_comm]

theorem get_eraseAll (d : Dict κ ν) (ks : List κ) (k : κ) :
    (d.eraseAll ks).get k = if k ∈ ks then none else d.get k := by
  apply Option.ext
  intro v
  rw [get_eq_some_iff, eraseAll_entries, List.mem_filter, decide_eq_true_eq, ← get_eq_some_iff]
  by_cases hk : k ∈ ks
  · simp [hk]
  · simp [hk]

/-- Removing an entry that is there makes the dictionary smaller. -/
theorem size_eraseAll_lt {d : Dict κ ν} {ks : List κ} {e : κ × ν} (he : e ∈ d.entries)
    (hk : e.1 ∈ ks) : (d.eraseAll ks).size < d.size := by
  rw [size, size, eraseAll_entries]
  exact List.length_filter_lt_length_iff_exists.mpr ⟨e, he, by simpa using hk⟩

theorem size_eraseAll_le (d : Dict κ ν) (ks : List κ) : (d.eraseAll ks).size ≤ d.size := by
  rw [size, size, eraseAll_entries]
  exact List.length_filter_le _ _

/-- Removing keys that carry nothing leaves a total as it was. -/
theorem sumBy_eraseAll {d : Dict κ ν} {ks : List κ} {f : κ → ν → Nat}
    (h : ∀ e ∈ d.entries, e.1 ∈ ks → f e.1 e.2 = 0) : (d.eraseAll ks).sumBy f = d.sumBy f := by
  rw [sumBy, sumBy, eraseAll_entries]
  generalize d.entries = es at h
  induction es with
  | nil => rfl
  | cons e rest ih =>
    have hrest := ih (fun e he => h e (List.mem_cons_of_mem _ he))
    by_cases hk : e.1 ∈ ks
    · rw [List.filter_cons_of_neg (by simpa using hk), hrest, List.map_cons, List.sum_cons,
        h e List.mem_cons_self hk, Nat.zero_add]
    · rw [List.filter_cons_of_pos (by simpa using hk), List.map_cons, List.map_cons, List.sum_cons,
        List.sum_cons, hrest]

/-- The second of two assignments to one key stands. -/
theorem set_set (d : Dict κ ν) (k : κ) (v w : ν) : (d.set k v).set k w = d.set k w := by
  have hkeys : k ∈ (setEntries d.entries k v).map Prod.fst := by
    rw [setEntries_keys]
    split
    · assumption
    · simp
  have hentries : setEntries (setEntries d.entries k v) k w = setEntries d.entries k w := by
    rw [setEntries, if_pos hkeys]
    unfold setEntries
    split
    · rw [List.map_map]
      apply List.map_congr_left
      intro e _
      by_cases he : e.1 = k
      · simp [he]
      · simp [he]
    · rename_i hk
      have hrest : d.entries.map (fun e => if e.1 = k then (k, w) else e) = d.entries := by
        refine (List.map_congr_left fun e he => if_neg fun heq => hk ?_).trans (List.map_id _)
        exact List.mem_map.mpr ⟨e, he, heq⟩
      simp [hrest]
  simp only [set, hentries]

/-- An assignment of the value that is there. -/
theorem set_of_get {d : Dict κ ν} {k : κ} {v : ν} (h : d.get k = some v) : d.set k v = d := by
  have hkey : k ∈ d.entries.map Prod.fst := (d.mem_keys_iff k).mpr ⟨v, h⟩
  have hentries : setEntries d.entries k v = d.entries := by
    rw [setEntries, if_pos hkey]
    refine (List.map_congr_left fun e he => ?_).trans (List.map_id _)
    split
    · rename_i heq
      have hget := (d.get_eq_some_iff k e.2).mpr (heq ▸ he)
      rw [h] at hget
      rw [Option.some.inj hget, ← heq]
      rfl
    · rfl
  simp only [set, hentries]

theorem size_set (d : Dict κ ν) (k : κ) (v : ν) :
    (d.set k v).size = d.size + if d.get k = none then 1 else 0 := by
  cases h : d.get k with
  | none => simp [size, set_entries_of_none h]
  | some w =>
    have hk : k ∈ d.entries.map Prod.fst := (d.mem_keys_iff k).mpr ⟨w, h⟩
    simp [size, set, setEntries, hk]

/-! ## From a list of assignments -/

/-- The dictionary after these assignments, one after the other. -/
def ofList (es : List (κ × ν)) : Dict κ ν := es.foldl (fun d e => d.set e.1 e.2) empty

/-- Assignments to new keys append them. -/
theorem foldl_set {es : List (κ × ν)} {d : Dict κ ν}
    (hnd : ((d.entries ++ es).map Prod.fst).Nodup) :
    es.foldl (fun d e => d.set e.1 e.2) d = ⟨d.entries ++ es, hnd⟩ := by
  induction es generalizing d with
  | nil => simp
  | cons e rest ih =>
    have hnew : e.1 ∉ d.entries.map Prod.fst := by
      intro hmem
      rw [List.map_append, List.nodup_append] at hnd
      exact hnd.2.2 e.1 hmem e.1 (by simp) rfl
    have hset : (d.set e.1 e.2).entries = d.entries ++ [e] := by
      simp [set, setEntries, hnew]
    rw [List.foldl_cons, ih (by rw [hset]; simpa using hnd)]
    simp [hset]

theorem ofList_of_nodup {es : List (κ × ν)} (hnd : (es.map Prod.fst).Nodup) :
    ofList es = ⟨es, hnd⟩ := foldl_set (d := empty) hnd

/-- What assignments keep, a list of them keeps. -/
theorem ofList_induction {P : Dict κ ν → Prop} {es : List (κ × ν)} (hempty : P empty)
    (hset : ∀ d, P d → ∀ e ∈ es, P (d.set e.1 e.2)) : P (ofList es) := by
  unfold ofList
  exact List.foldlRecOn es _ hempty hset

/-- A dictionary has no entries but the assigned ones. -/
theorem mem_ofList {es : List (κ × ν)} : ∀ e ∈ (ofList es).entries, e ∈ es := by
  refine ofList_induction (P := fun d => ∀ e ∈ d.entries, e ∈ es) (by simp [empty]) ?_
  intro d hd e he e' he'
  rcases mem_setEntries.mp he' with ⟨hk, hv⟩ | ⟨_, hmem⟩
  · rwa [show e' = e from Prod.ext hk hv]
  · exact hd e' hmem

/-- Assignments to different keys are all found. -/
theorem get_ofList_eq_some_iff {es : List (κ × ν)} (hnd : (es.map Prod.fst).Nodup) (k : κ) (v : ν) :
    (ofList es).get k = some v ↔ (k, v) ∈ es := by
  rw [get_eq_some_iff, ofList_of_nodup hnd]

omit [DecidableEq κ] in
/-- Picking and rewriting entries of different keys, one entry for a key. -/
theorem nodup_keys_filterMap {κ' ν' : Type} {f : κ' × ν' → Option (κ × ν)}
    (hkey : ∀ {a a' b b'}, f a = some b → f a' = some b' → b.1 = b'.1 → a.1 = a'.1)
    {l : List (κ' × ν')} (h : (l.map Prod.fst).Nodup) : ((l.filterMap f).map Prod.fst).Nodup := by
  rw [List.Nodup, List.pairwise_map] at h ⊢
  rw [List.pairwise_filterMap]
  exact h.imp (fun hne b hb b' hb' heq => hne (hkey hb hb' heq))

/-- A dictionary built field by field has the keys of the fields. -/
theorem isSome_get_ofList {es : List (κ × ν)} {k : κ} :
    ((ofList es).get k).isSome = true ↔ k ∈ es.map Prod.fst := by
  have hfold : ∀ d : Dict κ ν,
      ((es.foldl (fun d e => d.set e.1 e.2) d).get k).isSome = true
        ↔ (d.get k).isSome = true ∨ k ∈ es.map Prod.fst := by
    induction es with
    | nil => simp
    | cons e es ih =>
      intro d
      rw [List.foldl_cons, ih, get_set, List.map_cons, List.mem_cons]
      by_cases hk : k = e.1
      · simp [hk]
      · simp [hk]
  simpa [ofList] using hfold empty

theorem sumBy_ofList_le (es : List (κ × ν)) (f : κ → ν → Nat) :
    (ofList es).sumBy f ≤ (es.map (fun e => f e.1 e.2)).sum := by
  have hfold : ∀ d : Dict κ ν, (es.foldl (fun d e => d.set e.1 e.2) d).sumBy f
      ≤ d.sumBy f + (es.map (fun e => f e.1 e.2)).sum := by
    induction es with
    | nil => simp
    | cons e rest ih =>
      intro d
      have hset := d.sumBy_set_le e.1 e.2 f
      have hrest := ih (d.set e.1 e.2)
      simp only [List.foldl_cons, List.map_cons, List.sum_cons]
      omega
  simpa [ofList, sumBy, empty] using hfold empty

end Dict

end Lib
