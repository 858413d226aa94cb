import Smolvfs.Lib.Octets

/-!
# Comparing octet strings

`memcmp` compares two strings octet by octet, unsigned, over their common
length.  `lexcmp` breaks a tie by length; it decides the lexicographic order
`<` of `List UInt8` (`lexcmp_eq_lt`, `lexcmp_eq_eq`, `lexcmp_eq_gt`), so it is a
total order.  On strings of one length `memcmp` is `lexcmp`.
-/

namespace Octets

/-- The first pair of octets that differ decides. -/
def memcmp : Bytes → Bytes → Ordering
  | a :: as, b :: bs => if a < b then .lt else if b < a then .gt else memcmp as bs
  | _, _ => .eq

/-- `memcmp`, then the shorter string first. -/
def lexcmp (a b : Bytes) : Ordering := (memcmp a b).then (compare a.length b.length)

theorem lexcmp_cons (a b : UInt8) (as bs : Bytes) :
    lexcmp (a :: as) (b :: bs) = if a < b then .lt else if b < a then .gt else lexcmp as bs := by
  simp only [lexcmp, memcmp, List.length_cons]
  split
  · rfl
  · split
    · rfl
    · simp only [Nat.compare_eq_ite_lt, Nat.add_lt_add_iff_right]

theorem lexcmp_eq_lt (a b : Bytes) : lexcmp a b = .lt ↔ a < b := by
  induction a generalizing b with
  | nil => cases b <;> simp [lexcmp, memcmp, Nat.compare_eq_ite_lt]
  | cons x xs ih =>
    cases b with
    | nil => simp [lexcmp, memcmp, Nat.compare_eq_ite_lt]
    | cons y ys =>
      rw [lexcmp_cons, List.cons_lt_cons_iff]
      by_cases hxy : x < y
      · simp [hxy]
      · by_cases hyx : y < x
        · have hne : x ≠ y := by
            rintro rfl
            exact hxy hyx
          simp [hxy, hyx, hne]
        · have heq : x = y := by
            rw [UInt8.lt_iff_toNat_lt] at hxy hyx
            exact UInt8.toNat_inj.mp (by omega)
          simp [heq, ih]

theorem lexcmp_eq_eq (a b : Bytes) : lexcmp a b = .eq ↔ a = b := by
  induction a generalizing b with
  | nil => cases b <;> simp [lexcmp, memcmp, Nat.compare_eq_ite_lt]
  | cons x xs ih =>
    cases b with
    | nil => simp [lexcmp, memcmp, Nat.compare_eq_ite_lt]
    | cons y ys =>
      rw [lexcmp_cons, List.cons.injEq]
      by_cases hxy : x < y
      · have hne : x ≠ y := by
          rintro rfl
          rw [UInt8.lt_iff_toNat_lt] at hxy
          omega
        simp [hxy, hne]
      · by_cases hyx : y < x
        · have hne : x ≠ y := by
            rintro rfl
            exact hxy hyx
          simp [hxy, hyx, hne]
        · have heq : x = y := by
            rw [UInt8.lt_iff_toNat_lt] at hxy hyx
            exact UInt8.toNat_inj.mp (by omega)
          simp [heq, ih]

theorem lexcmp_swap (a b : Bytes) : (lexcmp a b).swap = lexcmp b a := by
  induction a generalizing b with
  | nil => cases b <;> simp [lexcmp, memcmp, Nat.compare_eq_ite_lt]
  | cons x xs ih =>
    cases b with
    | nil => simp [lexcmp, memcmp, Nat.compare_eq_ite_lt]
    | cons y ys =>
      rw [lexcmp_cons, lexcmp_cons]
      by_cases hxy : x < y
      · have hyx : ¬ y < x := by
          rw [UInt8.lt_iff_toNat_lt] at hxy ⊢
          omega
        simp [hxy, hyx]
      · by_cases hyx : y < x
        · simp [hxy, hyx]
        · simp [hxy, hyx, ih]

theorem lexcmp_eq_gt (a b : Bytes) : lexcmp a b = .gt ↔ b < a := by
  rw [← lexcmp_eq_lt, ← lexcmp_swap]
  cases lexcmp a b <;> simp

@[simp] theorem lexcmp_self (a : Bytes) : lexcmp a a = .eq := (lexcmp_eq_eq a a).mpr rfl

theorem memcmp_eq_lexcmp (a b : Bytes) (h : a.length = b.length) : memcmp a b = lexcmp a b := by
  unfold lexcmp
  rw [h, Nat.compare_eq_eq.mpr rfl]
  cases memcmp a b <;> rfl

theorem memcmp_eq_eq (a b : Bytes) (h : a.length = b.length) : memcmp a b = .eq ↔ a = b := by
  rw [memcmp_eq_lexcmp a b h, lexcmp_eq_eq]

end Octets
