/-
Memnode.Lib.RoundRobin — queues served in rotation.

A `Rotation` keeps one queue per stream and the order in which the
streams are served. `put` appends a message to its stream, which joins
the order at the back if it had no queue; `take` removes one message
from the stream at the front, and the stream goes to the back if it has
more. A stream whose queue turns out to be empty is dropped on the way.

`Ordered` is the representation invariant: the order lists exactly the
streams with a queue, each once, and no queue is empty. Under it a take
finds a message at the front and drops no stream (`skipped_eq_nil`).

Fairness is the potential `ahead s t`: how often `t` stands before `s`
in the order. Putting anything leaves it alone, and taking from `t`
takes one off (`ahead_take`). As the order has no duplicates it starts
at one or less, and that bounds what a run takes from `t` before `s`
has its turn.
-/
import Memnode.Lib.Dict
import Mathlib.Data.List.Nodup
import Mathlib.Data.List.Count

namespace Lib

structure Rotation (σ μ : Type) where
  queues : Dict σ (List μ)
  order : List σ

namespace Rotation

variable {σ μ : Type} [DecidableEq σ]

def empty : Rotation σ μ := ⟨Dict.empty, []⟩

/-- Append a message to its stream. -/
def put (r : Rotation σ μ) (s : σ) (m : μ) : Rotation σ μ :=
  match r.queues.get s with
  | none => ⟨r.queues.set s [m], r.order ++ [s]⟩
  | some q => ⟨r.queues.set s (q ++ [m]), r.order⟩

/-- The first message of the first stream in the order that has one. -/
def takeFrom : List σ → Dict σ (List μ) → Option (σ × μ) × Rotation σ μ
  | [], queues => (none, ⟨queues, []⟩)
  | s :: rest, queues =>
      match queues.get s with
      | some (m :: []) => (some (s, m), ⟨queues.erase s, rest⟩)
      | some (m :: m' :: q) => (some (s, m), ⟨queues.set s (m' :: q), rest ++ [s]⟩)
      | _ => takeFrom rest (queues.erase s)

def take (r : Rotation σ μ) : Option (σ × μ) × Rotation σ μ := takeFrom r.order r.queues

/-- The streams that a take runs into without a message, and drops. -/
def skippedFrom : List σ → Dict σ (List μ) → List σ
  | [], _ => []
  | s :: rest, queues =>
      match queues.get s with
      | some (_ :: _) => []
      | _ => s :: skippedFrom rest (queues.erase s)

def skipped (r : Rotation σ μ) : List σ := skippedFrom r.order r.queues

/-- What is queued on a stream. -/
def queue (r : Rotation σ μ) (s : σ) : List μ := (r.queues.get s).getD []

/-- The number of queued messages. -/
def depth (r : Rotation σ μ) : Nat := r.queues.sumBy (fun _ q => q.length)

/-- The order lists the streams with a queue, and no queue is empty. -/
structure Ordered (r : Rotation σ μ) : Prop where
  nodup : r.order.Nodup
  mem_order : ∀ s, s ∈ r.order ↔ r.queue s ≠ []
  nonempty : ∀ s, r.queues.get s ≠ some []

theorem ordered_empty : (empty : Rotation σ μ).Ordered where
  nodup := List.nodup_nil
  mem_order := by simp [empty, queue]
  nonempty := by simp [empty]

/-! ## Putting -/

theorem queue_put (r : Rotation σ μ) (s t : σ) (m : μ) :
    (r.put s m).queue t = if t = s then r.queue s ++ [m] else r.queue t := by
  unfold put queue
  cases hq : r.queues.get s with
  | none =>
    by_cases hts : t = s
    · subst hts
      simp [Dict.get_set_self]
    · simp [Dict.get_set, hts]
  | some q =>
    by_cases hts : t = s
    · subst hts
      simp [Dict.get_set_self]
    · simp [Dict.get_set, hts]

/-- The order after a put. -/
theorem Ordered.order_put {r : Rotation σ μ} (h : r.Ordered) (s : σ) (m : μ) :
    (r.put s m).order = if s ∈ r.order then r.order else r.order ++ [s] := by
  have hmem := h.mem_order s
  have hne := h.nonempty s
  unfold put queue at *
  cases hq : r.queues.get s with
  | none =>
    rw [hq] at hmem
    simp [show s ∉ r.order from fun hs => (hmem.mp hs) rfl]
  | some q =>
    rw [hq] at hmem hne
    have hs : s ∈ r.order := hmem.mpr (by simpa using hne)
    simp [hs]

theorem Ordered.put {r : Rotation σ μ} (h : r.Ordered) (s : σ) (m : μ) : (r.put s m).Ordered where
  nodup := by
    rw [h.order_put]
    split
    · exact h.nodup
    · rename_i hs
      exact List.nodup_append.mpr
        ⟨h.nodup, List.nodup_singleton s, by rintro a ha b hb rfl; simp_all⟩
  mem_order := by
    intro t
    rw [h.order_put, queue_put]
    have ht := h.mem_order t
    by_cases hts : t = s
    · subst hts
      by_cases hmem : t ∈ r.order <;> simp [hmem]
    · by_cases hmem : s ∈ r.order <;> simp [hmem, hts, ht]
  nonempty := by
    intro t
    unfold Rotation.put
    cases hq : r.queues.get s with
    | none =>
      by_cases hts : t = s
      · simp [hts, Dict.get_set_self]
      · simpa [Dict.get_set, hts] using h.nonempty t
    | some q =>
      by_cases hts : t = s
      · simp [hts, Dict.get_set_self]
      · simpa [Dict.get_set, hts] using h.nonempty t

/-! ## Taking -/

/-- What `take` does to a rotation that keeps its invariant: nothing is
there, or the front stream gives its first message. -/
theorem Ordered.take_cases {r : Rotation σ μ} (h : r.Ordered) :
    (r.order = [] ∧ r.take = (none, r)) ∨
      ∃ s rest m q r', r.order = s :: rest ∧ r.queue s = m :: q ∧ r.take = (some (s, m), r') ∧
        r'.order = rest ++ (if q = [] then [] else [s]) ∧
        (∀ t, r'.queues.get t = if t = s then (if q = [] then none else some q)
          else r.queues.get t) := by
  obtain ⟨queues, order⟩ := r
  cases order with
  | nil => exact Or.inl ⟨rfl, rfl⟩
  | cons s rest =>
    right
    have hne : (queues.get s).getD [] ≠ [] := (h.mem_order s).mp (List.mem_cons_self ..)
    cases hq : queues.get s with
    | none => simp [hq] at hne
    | some q =>
      cases q with
      | nil => simp [hq] at hne
      | cons m q =>
        cases q with
        | nil =>
          refine ⟨s, rest, m, [], ⟨queues.erase s, rest⟩, rfl, by simp [queue, hq], ?_, by simp, ?_⟩
          · simp [take, takeFrom, hq]
          · intro t
            simp [Dict.get_erase]
        | cons m' q =>
          refine ⟨s, rest, m, m' :: q, ⟨queues.set s (m' :: q), rest ++ [s]⟩, rfl,
            by simp [queue, hq], ?_, by simp, ?_⟩
          · simp [take, takeFrom, hq]
          · intro t
            simp [Dict.get_set]

theorem Ordered.queue_take {r r' : Rotation σ μ} (h : r.Ordered) {s : σ} {m : μ}
    (ht : r.take = (some (s, m), r')) :
    r.queue s = m :: r'.queue s ∧ ∀ t, t ≠ s → r'.queue t = r.queue t := by
  obtain ⟨_, hn⟩ | ⟨s', rest, m', q, r'', _, hqueue, htake, _, hget⟩ := h.take_cases
  · rw [hn] at ht
    cases ht
  · rw [htake] at ht
    cases ht
    refine ⟨?_, fun t hts => by simp [queue, hget t, hts]⟩
    rw [hqueue]
    simp only [queue, hget, if_true]
    split <;> simp_all

theorem Ordered.take {r : Rotation σ μ} (h : r.Ordered) : r.take.2.Ordered := by
  obtain ⟨_, hn⟩ | ⟨s, rest, m, q, r', horder, hqueue, htake, horder', hget⟩ := h.take_cases
  · rw [hn]
    exact h
  rw [htake]
  have hnd := h.nodup
  rw [horder, List.nodup_cons] at hnd
  have hmem : ∀ t, t ∈ rest ↔ t ≠ s ∧ r.queue t ≠ [] := by
    intro t
    have ht := h.mem_order t
    rw [horder, List.mem_cons] at ht
    by_cases hts : t = s
    · subst hts
      simp [hnd.1]
    · simpa [hts] using ht
  refine ⟨?_, ?_, ?_⟩
  · rw [horder']
    split
    · simpa using hnd.2
    · exact List.nodup_append.mpr
        ⟨hnd.2, List.nodup_singleton s, by rintro a ha b hb rfl; simp_all⟩
  · intro t
    rw [horder', List.mem_append, hmem t]
    by_cases hts : t = s
    · subst hts
      by_cases hq : q = [] <;> simp [queue, hget, hq]
    · by_cases hq : q = [] <;> simp [queue, hget, hq, hts]
  · intro t
    rw [hget]
    by_cases hts : t = s
    · by_cases hq : q = [] <;> simp [hts, hq]
    · simpa [hts] using h.nonempty t

/-- The order lists the keys of the queues. -/
theorem Ordered.mem_order_iff_mem_keys {r : Rotation σ μ} (h : r.Ordered) (s : σ) :
    s ∈ r.order ↔ s ∈ r.queues.keys := by
  rw [h.mem_order s, r.queues.mem_keys_iff]
  have hne := h.nonempty s
  unfold queue
  cases hq : r.queues.get s with
  | none => simp
  | some q => simpa [hq] using hne

/-- A take runs into no empty queue. -/
theorem Ordered.skipped_eq_nil {r : Rotation σ μ} (h : r.Ordered) : r.skipped = [] := by
  obtain ⟨queues, order⟩ := r
  cases order with
  | nil => rfl
  | cons s rest =>
    have hne : (queues.get s).getD [] ≠ [] := (h.mem_order s).mp (List.mem_cons_self ..)
    cases hq : queues.get s with
    | none => simp [hq] at hne
    | some q =>
      cases q with
      | nil => simp [hq] at hne
      | cons m q => simp [skipped, skippedFrom, hq]

/-! ## Counting -/

theorem depth_put (r : Rotation σ μ) (s : σ) (m : μ) : (r.put s m).depth = r.depth + 1 := by
  unfold put depth
  cases hq : r.queues.get s with
  | none => exact Dict.sumBy_set_of_none hq [m] _
  | some q =>
    have hset := Dict.sumBy_set_of_some hq (q ++ [m]) (fun _ q => q.length)
    simp only [List.length_append, List.length_singleton] at hset
    show (r.queues.set s (q ++ [m])).sumBy (fun _ q => q.length) = _
    omega

/-- A take removes what it returns and nothing else, also where it runs
into empty queues. -/
theorem depth_takeFrom (order : List σ) (queues : Dict σ (List μ)) :
    (takeFrom order queues).2.depth + (takeFrom order queues).1.toList.length
      = queues.sumBy (fun _ q => q.length) := by
  induction order generalizing queues with
  | nil => rfl
  | cons s rest ih =>
    cases hq : queues.get s with
    | none =>
      simp only [takeFrom, hq, ih, Dict.sumBy, Dict.erase_entries_of_none hq]
    | some q =>
      have herase := Dict.sumBy_erase hq (fun _ q => q.length)
      cases q with
      | nil =>
        simp only [takeFrom, hq, ih]
        simpa using herase.symm
      | cons m q =>
        cases q with
        | nil =>
          simp only [takeFrom, hq, depth]
          simpa [Nat.add_comm] using herase.symm
        | cons m' q =>
          have hset := Dict.sumBy_set_of_some hq (m' :: q) (fun _ q => q.length)
          simp only [List.length_cons] at hset
          simp only [takeFrom, hq, depth, Option.toList_some, List.length_singleton]
          omega

theorem depth_take (r : Rotation σ μ) :
    r.take.2.depth + r.take.1.toList.length = r.depth := depth_takeFrom r.order r.queues

/-! ## Fairness -/

/-- How often `t` stands before `s` in the order. -/
def ahead (s t : σ) (order : List σ) : Nat := (order.takeWhile (fun x => x ≠ s)).count t

theorem Ordered.ahead_le_one {r : Rotation σ μ} (h : r.Ordered) (s t : σ) :
    ahead s t r.order ≤ 1 :=
  List.nodup_iff_count_le_one.mp (h.nodup.sublist (List.takeWhile_sublist _)) t

/-- What joins behind `s` is not ahead of it. -/
theorem ahead_append {s : σ} {order : List σ} (hs : s ∈ order) (t : σ) (more : List σ) :
    ahead s t (order ++ more) = ahead s t order := by
  unfold ahead
  induction order with
  | nil => cases hs
  | cons x rest ih =>
    by_cases hx : x = s
    · simp [hx]
    · have hrest : s ∈ rest := (List.mem_cons.mp hs).resolve_left (fun h => hx h.symm)
      simpa [hx, List.count_cons] using ih hrest

theorem Ordered.ahead_put {r : Rotation σ μ} (h : r.Ordered) {s : σ} (hs : s ∈ r.order) (t x : σ)
    (m : μ) : ahead s t (r.put x m).order = ahead s t r.order := by
  rw [h.order_put]
  split
  · rfl
  · exact ahead_append hs t [x]

/-- A take from another stream than `s` takes that stream off what is
ahead of `s`. -/
theorem Ordered.ahead_take {r r' : Rotation σ μ} (h : r.Ordered) {s x : σ} {m : μ}
    (hs : s ∈ r.order) (ht : r.take = (some (x, m), r')) (hx : x ≠ s) (t : σ) :
    ahead s t r'.order + (if x = t then 1 else 0) = ahead s t r.order := by
  obtain ⟨_, hn⟩ | ⟨x', rest, m', q, r'', horder, _, htake, horder', _⟩ := h.take_cases
  · rw [hn] at ht
    cases ht
  · rw [htake] at ht
    cases ht
    rw [horder] at hs
    have hrest : s ∈ rest := (List.mem_cons.mp hs).resolve_left (fun h => hx h.symm)
    rw [horder, horder', ahead_append hrest]
    simp [ahead, hx, List.count_cons]

end Rotation

end Lib
