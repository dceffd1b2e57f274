/-
Memnode.Lib.Pool — cooperative tasks over one shared state.

A pool is a shared state and a list of tasks. A task is advanced by
`run`, which is one atomic step: it may change the shared state and
leaves the task at its next suspension point. Any task may be advanced
at any time, and new tasks may join at any time, so `Reachable`
quantifies over every schedule.

`Reachable.accounting` is the rule the module exists for. Give every
task a weight in a commutative monoid (what the task still owes or
holds at its suspension point) and an invariant `J` between the shared
state and the TOTAL weight. If one step of one task keeps `J` with the
weight of all other tasks arbitrary, then `J` holds in every reachable
pool. No proof about a step ever looks at the other tasks.

`Reachable.board` is the rule for facts that outlive the step that made
them. A task tells some facts, and tells no fewer as it advances. An
invariant `J` between the shared state and everything told, and a local
fact `L` of each task that more telling cannot hurt, hold in every
reachable pool if one step of one task keeps them.
-/
import Mathlib.Logic.Relation
import Mathlib.Algebra.BigOperators.Group.List.Basic
import Mathlib.Data.Set.Lattice

namespace Lib

structure Pool (σ τ : Type) where
  shared : σ
  tasks : List τ

namespace Pool

variable {σ τ : Type} {start : τ → Prop} {run : σ → τ → σ × τ} {init : σ}

/-- One step of the pool: a task joins, or one task advances. -/
inductive Step (start : τ → Prop) (run : σ → τ → σ × τ) : Pool σ τ → Pool σ τ → Prop where
  | spawn (s : σ) (ts : List τ) (t : τ) : start t → Step start run ⟨s, ts⟩ ⟨s, ts ++ [t]⟩
  | advance (s : σ) (l : List τ) (t : τ) (r : List τ) :
      Step start run ⟨s, l ++ t :: r⟩ ⟨(run s t).1, l ++ (run s t).2 :: r⟩

/-- The pools some schedule reaches from `init` with no task. -/
def Reachable (init : σ) (start : τ → Prop) (run : σ → τ → σ × τ) (p : Pool σ τ) : Prop :=
  Relation.ReflTransGen (Step start run) ⟨init, []⟩ p

/-- One task running with nobody in between. -/
abbrev Alone (run : σ → τ → σ × τ) : σ × τ → σ × τ → Prop :=
  Relation.ReflTransGen (fun x y => run x.1 x.2 = y)

/-- The total weight of the tasks. -/
def weight {M : Type} [AddCommMonoid M] (w : τ → M) (p : Pool σ τ) : M :=
  (p.tasks.map w).sum

/-- What holds initially and is kept by every step holds in every
reachable pool. -/
theorem Reachable.invariant {p : Pool σ τ} (hp : Reachable init start run p)
    (I : Pool σ τ → Prop) (h0 : I ⟨init, []⟩)
    (hstep : ∀ p p', I p → Step start run p p' → I p') : I p := by
  induction hp with
  | refl => exact h0
  | tail _ hs ih => exact hstep _ _ ih hs

/-- A task may run alone for a while. -/
theorem Reachable.alone {s s' : σ} {t t' : τ} {l r : List τ}
    (hp : Reachable init start run ⟨s, l ++ t :: r⟩) (h : Alone run (s, t) (s', t')) :
    Reachable init start run ⟨s', l ++ t' :: r⟩ := by
  generalize hx : (s, t) = x at h
  generalize hy : (s', t') = y at h
  induction h generalizing s' t' with
  | refl =>
    cases hx.trans hy.symm
    exact hp
  | @tail y' _ _ hs ih =>
    have hmid := ih rfl
    have hstep : Step start run ⟨y'.1, l ++ y'.2 :: r⟩ ⟨s', l ++ t' :: r⟩ := by
      rw [← (Prod.mk.inj (hs.trans hy.symm)).1, ← (Prod.mk.inj (hs.trans hy.symm)).2]
      exact Step.advance y'.1 l y'.2 r
    exact hmid.tail hstep

/-- The accounting rule: a step that keeps `J` for its own task, with
the weight of every other task arbitrary, keeps it for the pool. -/
theorem Reachable.accounting {M : Type} [AddCommMonoid M] {p : Pool σ τ}
    (hp : Reachable init start run p) (w : τ → M) (J : σ → M → Prop) (h0 : J init 0)
    (hstart : ∀ t, start t → w t = 0)
    (hrun : ∀ s t rest, J s (w t + rest) → J (run s t).1 (w (run s t).2 + rest)) :
    J p.shared (p.weight w) := by
  refine hp.invariant (fun p => J p.shared (p.weight w)) (by simpa [weight] using h0) ?_
  intro p p' hJ hs
  cases hs with
  | spawn s ts t ht => simpa [weight, hstart t ht] using hJ
  | advance s l t r =>
    simp only [weight, List.map_append, List.map_cons, List.sum_append, List.sum_cons] at hJ ⊢
    -- pull the advanced task to the front, so that `rest` is everybody else
    rw [add_left_comm] at hJ ⊢
    exact hrun s t _ hJ

/-- Everything the tasks have told. -/
def told {φ : Type} (tells : τ → Set φ) (p : Pool σ τ) : Set φ := {f | ∃ t ∈ p.tasks, f ∈ tells t}

theorem tells_subset_told {φ : Type} {tells : τ → Set φ} {p : Pool σ τ} {t : τ} (ht : t ∈ p.tasks) :
    tells t ⊆ p.told tells :=
  fun _ hf => ⟨t, ht, hf⟩

theorem told_append {φ : Type} (tells : τ → Set φ) (s : σ) (l r : List τ) :
    told tells ⟨s, l ++ r⟩ = told tells ⟨s, l⟩ ∪ told tells ⟨s, r⟩ := by
  ext f
  simp only [told, List.mem_append, Set.mem_ofPred_eq, Set.mem_union, or_and_right, exists_or]

theorem told_cons {φ : Type} (tells : τ → Set φ) (s : σ) (t : τ) (r : List τ) :
    told tells ⟨s, t :: r⟩ = tells t ∪ told tells ⟨s, r⟩ := by
  ext f
  simp only [told, List.mem_cons, Set.mem_ofPred_eq, Set.mem_union, or_and_right, exists_or,
    exists_eq_left]

/-- What a pool has told after a step of one task: what that task tells now, besides the rest. -/
theorem told_advance {φ : Type} {tells : τ → Set φ} {s s' : σ} {l r : List τ} {t t' : τ}
    (hgrow : tells t ⊆ tells t') :
    told tells ⟨s', l ++ t' :: r⟩ = told tells ⟨s, l ++ t :: r⟩ ∪ tells t' := by
  simp only [told_append, told_cons]
  ext f
  simp only [Set.mem_union]
  constructor
  · rintro (hl | hf | hr)
    · exact .inl (.inl hl)
    · exact .inr hf
    · exact .inl (.inr (.inr hr))
  · rintro ((hl | hf | hr) | hf)
    · exact .inl hl
    · exact .inr (.inl (hgrow hf))
    · exact .inr (.inr hr)
    · exact .inr (.inl hf)

/-- The board rule: what is told stays told, so a step that keeps `J` and
its own task's `L` with the other tasks' facts arbitrary keeps both for
the pool. -/
theorem Reachable.board {φ : Type} {p : Pool σ τ} (hp : Reachable init start run p)
    (tells : τ → Set φ) (J : σ → Set φ → Prop) (L : Set φ → τ → Prop)
    (hmono : ∀ F F' t, F ⊆ F' → L F t → L F' t) (h0 : J init ∅)
    (hstart : ∀ s F t, start t → J s F → J s (F ∪ tells t) ∧ L (F ∪ tells t) t)
    (hrun : ∀ s F t, tells t ⊆ F → J s F → L F t → tells t ⊆ tells (run s t).2 ∧
      J (run s t).1 (F ∪ tells (run s t).2) ∧ L (F ∪ tells (run s t).2) (run s t).2) :
    J p.shared (p.told tells) ∧ ∀ t ∈ p.tasks, L (p.told tells) t := by
  refine hp.invariant (fun p => J p.shared (p.told tells) ∧ ∀ t ∈ p.tasks, L (p.told tells) t) ?_ ?_
  · have hempty : told tells (⟨init, []⟩ : Pool σ τ) = ∅ := by
      ext f
      simp [told]
    exact ⟨hempty ▸ h0, by simp⟩
  · rintro p p' ⟨hJ, hL⟩ hs
    cases hs with
    | spawn s ts t ht =>
      have htold : told tells (⟨s, ts ++ [t]⟩ : Pool σ τ) = told tells ⟨s, ts⟩ ∪ tells t := by
        rw [told_append, told_cons]
        simp [told]
      obtain ⟨hJ', hL'⟩ := hstart s _ t ht hJ
      rw [htold]
      refine ⟨hJ', fun u hu => ?_⟩
      rcases List.mem_append.mp hu with hu | hu
      · exact hmono _ _ u Set.subset_union_left (hL u hu)
      · rw [List.mem_singleton.mp hu]
        exact hL'
    | advance s l t r =>
      have hmem : t ∈ l ++ t :: r := by simp
      obtain ⟨hgrow, hJ', hL'⟩ :=
        hrun s _ t (tells_subset_told (p := ⟨s, l ++ t :: r⟩) hmem) hJ (hL t hmem)
      rw [told_advance hgrow]
      refine ⟨hJ', fun u hu => ?_⟩
      simp only [List.mem_append, List.mem_cons] at hu
      rcases hu with hu | rfl | hu
      · exact hmono _ _ u Set.subset_union_left (hL u (by simp [hu]))
      · exact hL'
      · exact hmono _ _ u Set.subset_union_left (hL u (by simp [hu]))

end Pool

end Lib
