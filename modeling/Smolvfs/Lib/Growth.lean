import Mathlib.Algebra.Group.Nat.Defs
import Mathlib.Data.Nat.Basic

/-!
# Arrays that double

The capacity of an array that is first given room for 64 items and then twice as
much whenever it is full.  `Doubling` relates length and capacity, and
`Doubling.full_iff` says at which lengths the array is full.
-/

namespace Growth

/-- The capacity after a growth. -/
def nextCap (cap : Nat) : Nat := if cap = 0 then 64 else cap * 2

/-- Counts at which the array must grow. -/
def GrowsAt (n : Nat) : Prop := n = 0 ∨ ∃ k, n = 64 * 2 ^ k

/-- The capacity is the next of the doubling sequence. -/
def Doubling (len cap : Nat) : Prop :=
  (cap = 0 ∧ len = 0) ∨ ∃ k, cap = 64 * 2 ^ k ∧ len ≤ cap ∧ 0 < len ∧ (k = 0 ∨ cap < 2 * len)

theorem Doubling.empty : Doubling 0 0 := .inl ⟨rfl, rfl⟩

variable {len cap : Nat}

/-- **The array is full** exactly at the lengths of the doubling sequence. -/
theorem Doubling.full_iff (h : Doubling len cap) : len ≥ cap ↔ GrowsAt len := by
  rcases h with ⟨h1, h2⟩ | ⟨k, h1, h2, hpos, h3⟩
  · exact ⟨fun _ => .inl h2, fun _ => by rw [h1]; exact Nat.zero_le _⟩
  · constructor
    · intro hge
      exact .inr ⟨k, h1 ▸ Nat.le_antisymm h2 hge⟩
    · rintro (h0 | ⟨j, hj⟩)
      · omega
      · by_contra hlt
        -- a power below the capacity is at most half of it, which the array has outgrown
        have hjk : j < k := by
          by_contra hle
          have := Nat.pow_le_pow_right (show 0 < 2 by omega) (show k ≤ j by omega)
          omega
        have := Nat.pow_le_pow_right (show 0 < 2 by omega) (show j + 1 ≤ k by omega)
        rw [Nat.pow_succ] at this
        rcases h3 with rfl | h3 <;> omega

theorem Doubling.grow (h : Doubling len cap) (hf : len ≥ cap) : Doubling (len + 1) (nextCap cap) := by
  unfold nextCap
  rcases h with ⟨h1, h2⟩ | ⟨k, h1, h2, hpos, h3⟩
  · rw [if_pos h1]
    exact .inr ⟨0, by simp, by omega, by omega, .inl rfl⟩
  · have hne : cap ≠ 0 := by omega
    rw [if_neg hne]
    refine .inr ⟨k + 1, ?_, by omega, by omega, .inr (by omega)⟩
    rw [h1, Nat.pow_succ]
    omega

theorem Doubling.push (h : Doubling len cap) (hf : ¬ len ≥ cap) : Doubling (len + 1) cap := by
  rcases h with ⟨h1, h2⟩ | ⟨k, h1, h2, hpos, h3⟩
  · exact absurd (by omega) hf
  · exact .inr ⟨k, h1, by omega, by omega, by omega⟩

end Growth
