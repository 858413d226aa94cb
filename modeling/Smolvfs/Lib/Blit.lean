import Mathlib.Data.List.Basic

/-!
# Copying into a buffer

`blit` writes at a place of a buffer, where all of it lies inside.

* `blit_middle`: a buffer in three parts, of which it replaces the one in the middle.
* `blit_eq_none`: exactly what reaches past the end is no write.
* `blitSeq_middle`: writes one behind the other replace what they are together.
-/

namespace Blit

variable {α : Type}

/-- `memcpy(buf + pos, data, n)`; none is a write past the end. -/
def blit (buf : List α) (pos : Nat) (data : List α) : Option (List α) :=
  if pos + data.length ≤ buf.length then some (buf.take pos ++ (data ++ buf.drop (pos + data.length))) else none

theorem blit_eq_none (buf : List α) (pos : Nat) (data : List α) :
    blit buf pos data = none ↔ buf.length < pos + data.length := by
  unfold blit
  split
  · next h =>
    constructor
    · intro hc
      cases hc
    · intro hc
      omega
  · next h =>
    constructor
    · intro _
      omega
    · intro _
      rfl

theorem length_blit {buf data out : List α} {pos : Nat} (h : blit buf pos data = some out) :
    out.length = buf.length := by
  unfold blit at h
  split at h
  · next hfits =>
    rw [← Option.some.inj h]
    simp only [List.length_append, List.length_take, List.length_drop]
    omega
  · cases h

/-- **A write replaces what has its length.** -/
theorem blit_middle (a b c data : List α) (h : data.length = b.length) :
    blit (a ++ (b ++ c)) a.length data = some (a ++ (data ++ c)) := by
  unfold blit
  rw [if_pos (by simp only [List.length_append]; omega), List.take_left, h, ← List.drop_drop, List.drop_left,
    List.drop_left]

/-- Writes one behind the other, and the place behind them. -/
def blitSeq : List α → Nat → List (List α) → Option (List α × Nat)
  | buf, pos, [] => some (buf, pos)
  | buf, pos, piece :: pieces => (blit buf pos piece).bind fun buf => blitSeq buf (pos + piece.length) pieces

theorem blitSeq_middle (a b c : List α) (pieces : List (List α)) (h : pieces.flatten.length = b.length) :
    blitSeq (a ++ (b ++ c)) a.length pieces =
      some (a ++ (pieces.flatten ++ c), a.length + pieces.flatten.length) := by
  induction pieces generalizing a b with
  | nil =>
    obtain rfl : b = [] := List.eq_nil_of_length_eq_zero h.symm
    rfl
  | cons piece pieces ih =>
    rw [List.flatten_cons, List.length_append] at h
    obtain ⟨x, y, rfl, hx⟩ : ∃ x y, b = x ++ y ∧ x.length = piece.length :=
      ⟨b.take piece.length, b.drop piece.length, (List.take_append_drop ..).symm, by rw [List.length_take]; omega⟩
    rw [List.length_append] at h
    have hrest := ih (a ++ piece) y (by omega)
    rw [List.length_append, List.append_assoc, List.append_assoc] at hrest
    unfold blitSeq
    rw [List.append_assoc, blit_middle a x _ piece hx.symm, Option.bind_some, hrest, List.flatten_cons,
      List.append_assoc, List.length_append, Nat.add_assoc]

/-- A buffer is what stands before a write that fits, what is written over, and what stands behind it. -/
theorem split_at (buf : List α) (pos n : Nat) (h : pos + n ≤ buf.length) :
    ∃ a b c, buf = a ++ (b ++ c) ∧ a.length = pos ∧ b.length = n := by
  refine ⟨buf.take pos, (buf.drop pos).take n, (buf.drop pos).drop n, ?_, ?_, ?_⟩
  · rw [List.take_append_drop, List.take_append_drop]
  · rw [List.length_take]
    omega
  · rw [List.length_take, List.length_drop]
    omega

end Blit
