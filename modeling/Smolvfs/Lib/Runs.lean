import Mathlib.Logic.Relation

/-!
# Runs of labelled steps

`Run step guard` is what finitely many steps lead to, each of an act that the
guard allows in the state it is taken in.

* `Run.invariant`: what every allowed step preserves, the run preserves;
* `Run.mono`: a run under a guard is one under a weaker guard.
-/

namespace Runs

variable {σ α : Type} {step : σ → α → σ → Prop} {guard : σ → α → Prop}

def Run (step : σ → α → σ → Prop) (guard : σ → α → Prop) : σ → σ → Prop :=
  Relation.ReflTransGen fun s s' => ∃ a, step s a s' ∧ guard s a

/-- Any act in any state. -/
def anyAct : σ → α → Prop := fun _ _ => True

theorem Run.refl (s : σ) : Run step guard s s := Relation.ReflTransGen.refl

theorem Run.tail {s s' s'' : σ} {a : α} (h : Run step guard s s') (hs : step s' a s'') (hg : guard s' a) :
    Run step guard s s'' := Relation.ReflTransGen.tail h ⟨a, hs, hg⟩

/-- **The invariant rule.** -/
theorem Run.invariant {s s' : σ} (h : Run step guard s s') (Inv : σ → Prop) (h0 : Inv s)
    (hstep : ∀ s a s', Inv s → step s a s' → guard s a → Inv s') : Inv s' := by
  induction h with
  | refl => exact h0
  | tail _ hs ih =>
    obtain ⟨a, hs, hg⟩ := hs
    exact hstep _ a _ ih hs hg

theorem Run.mono {weaker : σ → α → Prop} (hw : ∀ s a, guard s a → weaker s a) {s s' : σ}
    (h : Run step guard s s') : Run step weaker s s' := by
  induction h with
  | refl => exact .refl _
  | tail _ hs ih =>
    obtain ⟨a, hs, hg⟩ := hs
    exact ih.tail hs (hw _ _ hg)

end Runs
