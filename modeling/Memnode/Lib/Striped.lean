/-
Memnode.Lib.Striped — one dictionary spread over several.

A striped table is a family of dictionaries with a function `slot` that
says which of them a key belongs to. Every operation goes to the one
member `slot` names. `Placed` says that no entry sits in a member other
than its own; under it the table is indistinguishable from a single
dictionary: `get_set` and `get_erase` are the single-dictionary
equations, and `sumBy_set_of_none` and `sumBy_erase` are the
single-dictionary sums, taken over all members.
-/
import Mathlib.Algebra.BigOperators.Fin
import Memnode.Lib.Dict

namespace Lib

/-- Replacing one member of a finite family, in a sum over the family. -/
theorem sum_update_add {ι α M : Type} [Fintype ι] [DecidableEq ι] [AddCommMonoid M]
    (s : ι → α) (j : ι) (x : α) (g : α → M) :
    (∑ i, g (Function.update s j x i)) + g (s j) = (∑ i, g (s i)) + g x := by
  have hupd : (fun i => g (Function.update s j x i)) = Function.update (fun i => g (s i)) j (g x) := by
    funext i
    by_cases h : i = j
    · subst h; simp
    · simp [h]
  rw [hupd, Finset.sum_update_of_mem (Finset.mem_univ j),
    ← Finset.add_sum_erase Finset.univ (fun i => g (s i)) (Finset.mem_univ j),
    Finset.sdiff_singleton_eq_erase]
  exact (add_comm _ _).trans (by rw [add_comm (g x), add_assoc])

/-- A table striped over `n` dictionaries. -/
abbrev Striped (n : Nat) (κ ν : Type) : Type := Fin n → Dict κ ν

namespace Striped

variable {n : Nat} {κ ν : Type} [DecidableEq κ] (slot : κ → Fin n)

def get (t : Striped n κ ν) (k : κ) : Option ν := Dict.get (t (slot k)) k

def set (t : Striped n κ ν) (k : κ) (v : ν) : Striped n κ ν :=
  Function.update t (slot k) (Dict.set (t (slot k)) k v)

def erase (t : Striped n κ ν) (k : κ) : Striped n κ ν :=
  Function.update t (slot k) (Dict.erase (t (slot k)) k)

/-- The sum of `f` over the entries of all members. -/
def sumBy {M : Type} [AddCommMonoid M] (t : Striped n κ ν) (f : κ → ν → M) : M :=
  ∑ i, Dict.sumBy (t i) f

/-- Every entry sits in the member its key names. -/
def Placed (t : Striped n κ ν) : Prop :=
  ∀ i k v, Dict.get (t i) k = some v → slot k = i

variable {slot}

theorem get_set (t : Striped n κ ν) (k k' : κ) (v : ν) :
    get slot (set slot t k v) k' = if k' = k then some v else get slot t k' := by
  unfold get set
  by_cases hs : slot k' = slot k
  · rw [hs, Function.update_self, Dict.get_set]
  · have hk : k' ≠ k := fun h => hs (h ▸ rfl)
    simp [hs, hk]

theorem get_erase (t : Striped n κ ν) (k k' : κ) :
    get slot (erase slot t k) k' = if k' = k then none else get slot t k' := by
  unfold get erase
  by_cases hs : slot k' = slot k
  · rw [hs, Function.update_self, Dict.get_erase]
  · have hk : k' ≠ k := fun h => hs (h ▸ rfl)
    simp [hs, hk]

theorem placed_empty : Placed slot (fun _ => Dict.empty : Striped n κ ν) := by
  intro i k v h
  simp at h

theorem Placed.set {t : Striped n κ ν} (h : Placed slot t) (k : κ) (v : ν) :
    Placed slot (set slot t k v) := by
  intro i k' v' hg
  unfold Striped.set at hg
  by_cases hi : i = slot k
  · subst hi
    rw [Function.update_self, Dict.get_set] at hg
    split at hg
    · rename_i hk; rw [hk]
    · exact h _ _ _ hg
  · rw [Function.update_of_ne hi] at hg
    exact h _ _ _ hg

theorem Placed.erase {t : Striped n κ ν} (h : Placed slot t) (k : κ) :
    Placed slot (erase slot t k) := by
  intro i k' v' hg
  unfold Striped.erase at hg
  by_cases hi : i = slot k
  · subst hi
    rw [Function.update_self, Dict.get_erase] at hg
    split at hg
    · cases hg
    · exact h _ _ _ hg
  · rw [Function.update_of_ne hi] at hg
    exact h _ _ _ hg

/-- Under `Placed`, finding a key in some member is finding it. -/
theorem Placed.get_of_member {t : Striped n κ ν} (h : Placed slot t) {i : Fin n} {k : κ} {v : ν}
    (hg : Dict.get (t i) k = some v) : get slot t k = some v := by
  have hs := h i k v hg
  rw [get, hs]
  exact hg

theorem sumBy_set_of_none {M : Type} [AddCancelCommMonoid M] {t : Striped n κ ν} {k : κ}
    (h : get slot t k = none) (v : ν) (f : κ → ν → M) :
    sumBy (set slot t k v) f = sumBy t f + f k v := by
  have hu := sum_update_add t (slot k) (Dict.set (t (slot k)) k v) (fun d => Dict.sumBy d f)
  rw [Dict.sumBy_set_of_none (d := t (slot k)) h, add_comm (Dict.sumBy (t (slot k)) f),
    ← add_assoc] at hu
  exact add_right_cancel hu

theorem sumBy_erase {M : Type} [AddCancelCommMonoid M] {t : Striped n κ ν} {k : κ} {v : ν}
    (h : get slot t k = some v) (f : κ → ν → M) :
    sumBy t f = f k v + sumBy (erase slot t k) f := by
  have hu := sum_update_add t (slot k) (Dict.erase (t (slot k)) k) (fun d => Dict.sumBy d f)
  rw [Dict.sumBy_erase (d := t (slot k)) h, ← add_assoc, add_comm _ (f k v)] at hu
  exact (add_right_cancel hu).symm

end Striped

end Lib
