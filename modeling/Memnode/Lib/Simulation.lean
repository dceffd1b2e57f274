/-
Memnode.Lib.Simulation — a system that does what another does, in more
and smaller steps.

`Ranked` relates the states of a concrete system to those of an abstract
one. A step of the concrete system is a step of the abstract one, or it
changes nothing there and a rank goes down. The rank is what makes the
relation useful for termination: without it the concrete system could
take steps of its own forever while the abstract one stands still.

`Ranked.run` takes runs to runs, and `Ranked.acc` takes termination the
other way: from states where the abstract system comes to an end, the
concrete one does too.
-/
import Mathlib.Logic.Relation
import Mathlib.Order.WellFounded

namespace Lib

variable {γ α : Type*}

/-- `R` relates the states of `step` to those of `step'`, with a rank for
the steps that have no counterpart. -/
def Ranked (step : γ → γ → Prop) (step' : α → α → Prop) (R : γ → α → Prop) (rank : γ → Nat) : Prop :=
  ∀ c a c', R c a → step c c' → (∃ a', step' a a' ∧ R c' a') ∨ (R c' a ∧ rank c' < rank c)

variable {step : γ → γ → Prop} {step' : α → α → Prop} {R : γ → α → Prop} {rank : γ → Nat}

/-- Runs go to runs. -/
theorem Ranked.run (h : Ranked step step' R rank) {c c' : γ} (hrun : Relation.ReflTransGen step c c')
    {a : α} (hR : R c a) : ∃ a', Relation.ReflTransGen step' a a' ∧ R c' a' := by
  induction hrun with
  | refl => exact ⟨a, .refl, hR⟩
  | tail _ hstep ih =>
    obtain ⟨b, hb, hRb⟩ := ih
    rcases h _ _ _ hRb hstep with ⟨b', hb', hRb'⟩ | ⟨hRb', -⟩
    · exact ⟨b', hb.tail hb', hRb'⟩
    · exact ⟨b, hb, hRb'⟩

/-- Where the abstract system ends, the concrete one ends. -/
theorem Ranked.acc (h : Ranked step step' R rank) {a : α} (hacc : Acc (fun y x => step' x y) a) {c : γ}
    (hR : R c a) : Acc (fun y x => step x y) c := by
  induction hacc generalizing c with
  | intro a _ ih =>
    -- the rank bounds the steps until the abstract system moves
    induction hn : rank c using Nat.strong_induction_on generalizing c with
    | _ n ihn =>
      refine Acc.intro c (fun c' hstep => ?_)
      rcases h c a c' hR hstep with ⟨a', ha', hR'⟩ | ⟨hR', hlt⟩
      · exact ih a' ha' hR'
      · exact ihn (rank c') (hn ▸ hlt) hR' rfl

end Lib
