import Mathlib.Order.Lattice
import Mathlib.Data.List.Basic

/-!
# Intervals laid end to end

`Tiles a l b`: the half-open intervals of `l` follow each other from `a` to `b`,
each one starting where the last one ended.  Then they stay between the two ends
(`Tiles.inside`) and every point between them is in exactly one interval
(`Tiles.existsUnique`).
-/

namespace Tiling

section
variable {α : Type} [LinearOrder α]

/-- The intervals `[lo, hi)` of the list, end to end from `a` to `b`. -/
def Tiles : α → List (α × α) → α → Prop
  | a, [], b => a = b
  | a, (lo, hi) :: l, b => lo = a ∧ lo < hi ∧ Tiles hi l b

theorem Tiles.le {a b : α} {l : List (α × α)} (h : Tiles a l b) : a ≤ b := by
  induction l generalizing a with
  | nil => exact le_of_eq h
  | cons x l ih =>
    obtain ⟨rfl, hlt, hl⟩ := h
    exact (le_of_lt hlt).trans (ih hl)

theorem Tiles.inside {a b : α} {l : List (α × α)} (h : Tiles a l b) (x : α × α) (hx : x ∈ l) :
    a ≤ x.1 ∧ x.1 < x.2 ∧ x.2 ≤ b := by
  induction l generalizing a with
  | nil => cases hx
  | cons y l ih =>
    obtain ⟨rfl, hlt, hl⟩ := h
    rcases List.mem_cons.mp hx with rfl | hx
    · exact ⟨le_refl _, hlt, hl.le⟩
    · obtain ⟨h1, h2, h3⟩ := ih hl hx
      exact ⟨(le_of_lt hlt).trans h1, h2, h3⟩

/-- **No gap and no overlap**: a point between the ends is in exactly one of the intervals. -/
theorem Tiles.existsUnique {a b : α} {l : List (α × α)} (h : Tiles a l b) (x : α) (ha : a ≤ x) (hb : x < b) :
    ∃! i : Fin l.length, (l.get i).1 ≤ x ∧ x < (l.get i).2 := by
  induction l generalizing a with
  | nil =>
    obtain rfl : a = b := h
    exact absurd hb (not_lt_of_ge ha)
  | cons y l ih =>
    obtain ⟨rfl, hlt, hl⟩ := h
    by_cases hx : x < y.2
    · -- in the first one, and the others start behind it
      refine ⟨⟨0, by simp⟩, ⟨ha, hx⟩, ?_⟩
      rintro ⟨i, hi⟩ ⟨h1, h2⟩
      cases i with
      | zero => rfl
      | succ i =>
        have hmem : l.get ⟨i, by simpa using hi⟩ ∈ l := List.get_mem l _
        have h3 : y.2 ≤ (l.get ⟨i, by simpa using hi⟩).1 := (hl.inside _ hmem).1
        exact absurd (lt_of_lt_of_le hx h3) (not_lt_of_ge h1)
    · obtain ⟨⟨i, hi⟩, hin, huniq⟩ := ih hl (not_lt.mp hx)
      refine ⟨⟨i + 1, by simpa using hi⟩, hin, ?_⟩
      rintro ⟨j, hj⟩ ⟨h1, h2⟩
      cases j with
      | zero => exact absurd h2 hx
      | succ j =>
        have heq : (⟨j, by simpa using hj⟩ : Fin l.length) = ⟨i, hi⟩ := huniq _ ⟨h1, h2⟩
        apply Fin.ext
        show j + 1 = i + 1
        rw [Fin.mk.injEq] at heq
        omega

end

end Tiling
