import Mathlib.Data.Char
import Mathlib.Data.List.Lex

/-!
# UTF-8 and the order of strings

A `Char` is a Unicode scalar value and `String.utf8EncodeChar` its octets, in Nat
`octets` (`toNat_utf8EncodeChar`).  The octets of a smaller scalar value come before
those of a greater one whatever is behind them (`utf8EncodeChar_lt`), so strings are
in the same order as lists of scalar values and as lists of octets
(`encode_lt_iff`), and no two have the same octets (`encode_inj`).
-/

namespace Utf8

/-- The octets of a list of scalar values. -/
def encode (cs : List Char) : List UInt8 := cs.flatMap String.utf8EncodeChar

@[simp] theorem encode_nil : encode [] = [] := rfl

@[simp] theorem encode_cons (c : Char) (cs : List Char) : encode (c :: cs) = String.utf8EncodeChar c ++ encode cs := by
  simp [encode]

/-! ## One scalar value -/

/-- A scalar value is below the surrogates or above them. -/
theorem val_valid (c : Char) : c.val.toNat < 0xD800 ∨ 0xDFFF < c.val.toNat ∧ c.val.toNat < 0x110000 := c.valid

/-- And each such number is one. -/
theorem exists_char (v : Nat) (h : v < 0xD800 ∨ 0xDFFF < v ∧ v < 0x110000) : ∃ c : Char, c.val.toNat = v := by
  have hv : (UInt32.ofNat v).toNat = v := UInt32.toNat_ofNat_of_lt' (show v < 2 ^ 32 by omega)
  refine ⟨⟨UInt32.ofNat v, ?_⟩, hv⟩
  show (UInt32.ofNat v).toNat.isValidChar
  rw [hv]
  exact h

/-- The shortest form that has room for the number. -/
def octets (v : Nat) : List Nat :=
  if v ≤ 0x7F then [v]
  else if v ≤ 0x7FF then [v / 64 + 0xC0, v % 64 + 0x80]
  else if v ≤ 0xFFFF then [v / 4096 + 0xE0, v / 64 % 64 + 0x80, v % 64 + 0x80]
  else [v / 262144 + 0xF0, v / 4096 % 64 + 0x80, v / 64 % 64 + 0x80, v % 64 + 0x80]

theorem toNat_utf8EncodeChar (c : Char) : (String.utf8EncodeChar c).map UInt8.toNat = octets c.val.toNat := by
  have hv := val_valid c
  unfold String.utf8EncodeChar octets
  dsimp only
  split
  · simp only [List.map_cons, List.map_nil, UInt8.toNat_ofNat']
    congr 1
    omega
  · split
    · simp only [List.map_cons, List.map_nil, UInt8.toNat_ofNat']
      congr 1
      · omega
      · congr 1
        omega
    · split
      · simp only [List.map_cons, List.map_nil, UInt8.toNat_ofNat']
        congr 1
        · omega
        · congr 1
          · omega
          · congr 1
            omega
      · simp only [List.map_cons, List.map_nil, UInt8.toNat_ofNat']
        congr 1
        · omega
        · congr 1
          · omega
          · congr 1
            · omega
            · congr 1
              omega

/-- Octets are told by their values. -/
theorem eq_utf8EncodeChar {s : List UInt8} {c : Char} (h : s.map UInt8.toNat = octets c.val.toNat) :
    s = String.utf8EncodeChar c := by
  rw [← toNat_utf8EncodeChar] at h
  exact List.map_injective_iff.mpr (fun a b => UInt8.toNat_inj.mp) h

theorem utf8EncodeChar_ne_nil (c : Char) : String.utf8EncodeChar c ≠ [] := String.utf8EncodeChar_ne_nil

/-! ## Order -/

theorem map_toNat_lt (s t : List UInt8) : s.map UInt8.toNat < t.map UInt8.toNat ↔ s < t := by
  induction s generalizing t with
  | nil => cases t <;> simp
  | cons a s ih =>
    cases t with
    | nil => simp
    | cons b t =>
      rw [List.map_cons, List.map_cons, List.cons_lt_cons_iff, List.cons_lt_cons_iff, ih, UInt8.toNat_inj,
        UInt8.lt_iff_toNat_lt]

/-- A head that is smaller decides, and so do two equal ones if what follows does. -/
theorem cons_lt_cons {a b : Nat} {x y : List Nat} (h : a < b ∨ a = b ∧ x < y) : a :: x < b :: y :=
  List.cons_lt_cons_iff.mpr h

/-- **The smaller number comes first**, whatever is behind it. -/
theorem octets_lt {v w : Nat} (h : v < w) (hw : w < 0x110000) (x y : List Nat) : octets v ++ x < octets w ++ y := by
  unfold octets
  by_cases h1 : v ≤ 0x7F
  · -- a lead octet of a longer form is greater than any of a shorter one
    rw [if_pos h1]
    split
    · exact cons_lt_cons (Or.inl (by omega))
    · split
      · exact cons_lt_cons (Or.inl (by omega))
      · split <;> exact cons_lt_cons (Or.inl (by omega))
  · rw [if_neg h1, if_neg (show ¬w ≤ 0x7F by omega)]
    by_cases h2 : v ≤ 0x7FF
    · rw [if_pos h2]
      split
      · by_cases hlead : v / 64 = w / 64
        · refine cons_lt_cons (Or.inr ⟨by omega, cons_lt_cons (Or.inl (by omega))⟩)
        · exact cons_lt_cons (Or.inl (by omega))
      · split <;> exact cons_lt_cons (Or.inl (by omega))
    · rw [if_neg h2, if_neg (show ¬w ≤ 0x7FF by omega)]
      by_cases h3 : v ≤ 0xFFFF
      · rw [if_pos h3]
        split
        · by_cases hlead : v / 4096 = w / 4096
          · refine cons_lt_cons (Or.inr ⟨by omega, ?_⟩)
            by_cases hnext : v / 64 = w / 64
            · exact cons_lt_cons (Or.inr ⟨by omega, cons_lt_cons (Or.inl (by omega))⟩)
            · exact cons_lt_cons (Or.inl (by omega))
          · exact cons_lt_cons (Or.inl (by omega))
        · exact cons_lt_cons (Or.inl (by omega))
      · rw [if_neg h3, if_neg (show ¬w ≤ 0xFFFF by omega)]
        by_cases hlead : v / 262144 = w / 262144
        · refine cons_lt_cons (Or.inr ⟨by omega, ?_⟩)
          by_cases hnext : v / 4096 = w / 4096
          · refine cons_lt_cons (Or.inr ⟨by omega, ?_⟩)
            by_cases hlast : v / 64 = w / 64
            · exact cons_lt_cons (Or.inr ⟨by omega, cons_lt_cons (Or.inl (by omega))⟩)
            · exact cons_lt_cons (Or.inl (by omega))
          · exact cons_lt_cons (Or.inl (by omega))
        · exact cons_lt_cons (Or.inl (by omega))

theorem utf8EncodeChar_lt {c d : Char} (h : c < d) (x y : List UInt8) :
    String.utf8EncodeChar c ++ x < String.utf8EncodeChar d ++ y := by
  have hd : d.val.toNat < 0x110000 := by
    have := val_valid d
    omega
  rw [← map_toNat_lt, List.map_append, List.map_append, toNat_utf8EncodeChar, toNat_utf8EncodeChar]
  exact octets_lt h hd _ _

/-- **Octets and scalar values are in the same order.** -/
theorem encode_lt_iff (cs ds : List Char) : encode cs < encode ds ↔ cs < ds := by
  have hlt : ∀ cs ds : List Char, cs < ds → encode cs < encode ds := by
    intro cs
    induction cs with
    | nil =>
      intro ds h
      cases ds with
      | nil => exact absurd h (List.not_lt_nil _)
      | cons d ds =>
        rw [encode_cons]
        cases hd : String.utf8EncodeChar d with
        | nil => exact absurd hd (utf8EncodeChar_ne_nil d)
        | cons b bs => exact List.nil_lt_cons _ _
    | cons c cs ih =>
      intro ds h
      cases ds with
      | nil => exact absurd h (List.not_lt_nil _)
      | cons d ds =>
        rw [encode_cons, encode_cons]
        rcases List.cons_lt_cons_iff.mp h with hcd | ⟨rfl, htail⟩
        · exact utf8EncodeChar_lt hcd _ _
        · exact List.append_left_lt (ih ds htail)
  constructor
  · intro h
    rcases lt_trichotomy cs ds with hcd | rfl | hdc
    · exact hcd
    · exact absurd ((map_toNat_lt _ _).mpr h) (lt_irrefl _)
    · exact absurd ((map_toNat_lt _ _).mpr (hlt ds cs hdc)) (lt_asymm ((map_toNat_lt _ _).mpr h))
  · exact hlt cs ds

/-- **No two lists of scalar values have the same octets.** -/
theorem encode_inj {cs ds : List Char} (h : encode cs = encode ds) : cs = ds := by
  have hirrefl : ¬ encode ds < encode ds := fun hlt => lt_irrefl _ ((map_toNat_lt _ _).mpr hlt)
  rcases lt_trichotomy cs ds with hlt | heq | hlt
  · rw [← encode_lt_iff, h] at hlt
    exact absurd hlt hirrefl
  · exact heq
  · rw [← encode_lt_iff, h] at hlt
    exact absurd hlt hirrefl

end Utf8
