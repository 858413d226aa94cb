import Smolvfs.Lib.Utf8
import Smolvfs.TreeEntry

/-!
# Names and Unicode

`valid_utf8` against UTF-8: each turn of its loop takes the octets of one scalar
value (`validUtf8_first`, `validUtf8_char`), so it accepts exactly the encodings of
lists of them.

`names_follow_unicode`: that, and the order of `name_cmp`.
-/

namespace Smolvfs

open Octets

/-! ## Octets -/

section
variable (c : UInt8)

/-- What a mask leaves of an octet, for all 256 of them. -/
theorem masks (x : BitVec 8) :
    (x &&& 0xe0#8 = 0xc0#8 ↔ x.toNat / 32 = 6) ∧ (x &&& 0xf0#8 = 0xe0#8 ↔ x.toNat / 16 = 14) ∧
      (x &&& 0xf8#8 = 0xf0#8 ↔ x.toNat / 8 = 30) ∧ (x &&& 0xc0#8 = 0x80#8 ↔ x.toNat / 64 = 2) ∧
      (x &&& 0x1f#8).toNat = x.toNat % 32 ∧ (x &&& 0x0f#8).toNat = x.toNat % 16 ∧
      (x &&& 0x07#8).toNat = x.toNat % 8 ∧ (x &&& 0x3f#8).toNat = x.toNat % 64 := by
  revert x
  decide +kernel

theorem lead_two : c &&& 0xe0 = 0xc0 ↔ c.toNat / 32 = 6 := by
  rw [← UInt8.toBitVec_inj]
  exact (masks c.toBitVec).1

theorem lead_three : c &&& 0xf0 = 0xe0 ↔ c.toNat / 16 = 14 := by
  rw [← UInt8.toBitVec_inj]
  exact (masks c.toBitVec).2.1

theorem lead_four : c &&& 0xf8 = 0xf0 ↔ c.toNat / 8 = 30 := by
  rw [← UInt8.toBitVec_inj]
  exact (masks c.toBitVec).2.2.1

theorem tail_octet : c &&& 0xc0 = 0x80 ↔ c.toNat / 64 = 2 := by
  rw [← UInt8.toBitVec_inj]
  exact (masks c.toBitVec).2.2.2.1

theorem low_five : (c &&& 0x1f).toNat = c.toNat % 32 := (masks c.toBitVec).2.2.2.2.1

theorem low_four : (c &&& 0x0f).toNat = c.toNat % 16 := (masks c.toBitVec).2.2.2.2.2.1

theorem low_three : (c &&& 0x07).toNat = c.toNat % 8 := (masks c.toBitVec).2.2.2.2.2.2.1

theorem low_six : (c &&& 0x3f).toNat = c.toNat % 64 := (masks c.toBitVec).2.2.2.2.2.2.2

end

/-- The number of a lead's bits and those of its tail. -/
def pointOf (lead : Nat) (tail : Bytes) : Nat := tail.foldl (fun cp cc => cp * 64 + cc.toNat % 64) lead

theorem utf8Point_iff (lead : UInt8) (least : Nat) (tail : Bytes) : utf8Point lead least tail = true ↔
    (∀ cc ∈ tail, cc.toNat / 64 = 2) ∧ least ≤ pointOf lead.toNat tail ∧
      (pointOf lead.toNat tail < 0xD800 ∨ 0xDFFF < pointOf lead.toNat tail ∧ pointOf lead.toNat tail < 0x110000) := by
  have hcp : (tail.foldl (fun cp cc => cp * 64 + (cc &&& 0x3f).toNat) lead.toNat) = pointOf lead.toNat tail := by
    unfold pointOf
    simp only [low_six]
  unfold utf8Point
  dsimp only
  rw [hcp]
  simp only [Bool.and_eq_true, Bool.not_eq_true', Bool.and_eq_false_iff, decide_eq_true_iff, decide_eq_false_iff_not,
    List.all_eq_true, beq_iff_eq, tail_octet]
  generalize pointOf lead.toNat tail = cp
  constructor
  · rintro ⟨⟨⟨htail, hleast⟩, hsur⟩, hmax⟩
    exact ⟨htail, hleast, by omega⟩
  · rintro ⟨htail, hleast, hval⟩
    exact ⟨⟨⟨htail, hleast⟩, by omega⟩, by omega⟩

theorem not_ascii {c : UInt8} (h : 128 ≤ c.toNat) : ¬ c < 0x80 := by
  rw [UInt8.lt_iff_toNat_lt]
  show ¬ c.toNat < 128
  omega

/-! ## One turn of the loop -/

/-- A lead for two octets and its tail are a scalar value's. -/
theorem point_two {c c1 : UInt8} (hlead : c.toNat / 32 = 6) (h : utf8Point (c &&& 0x1f) 0x80 [c1] = true) :
    ∃ ch : Char, [c, c1] = String.utf8EncodeChar ch := by
  rw [utf8Point_iff, low_five] at h
  simp only [pointOf, List.foldl_cons, List.foldl_nil, List.mem_singleton, forall_eq] at h
  obtain ⟨h1, hleast, hval⟩ := h
  obtain ⟨ch, hch⟩ := Utf8.exists_char _ hval
  refine ⟨ch, Utf8.eq_utf8EncodeChar ?_⟩
  rw [hch]
  unfold Utf8.octets
  rw [if_neg (by omega), if_pos (by omega)]
  simp only [List.map_cons, List.map_nil, List.cons.injEq, and_true]
  omega

theorem point_three {c c1 c2 : UInt8} (hlead : c.toNat / 16 = 14) (h : utf8Point (c &&& 0x0f) 0x800 [c1, c2] = true) :
    ∃ ch : Char, [c, c1, c2] = String.utf8EncodeChar ch := by
  rw [utf8Point_iff, low_four] at h
  simp only [pointOf, List.foldl_cons, List.foldl_nil, List.mem_cons, List.not_mem_nil, or_false, forall_eq_or_imp,
    forall_eq] at h
  obtain ⟨⟨h1, h2⟩, hleast, hval⟩ := h
  obtain ⟨ch, hch⟩ := Utf8.exists_char _ hval
  refine ⟨ch, Utf8.eq_utf8EncodeChar ?_⟩
  rw [hch]
  unfold Utf8.octets
  rw [if_neg (by omega), if_neg (by omega), if_pos (by omega)]
  simp only [List.map_cons, List.map_nil, List.cons.injEq, and_true]
  omega

theorem point_four {c c1 c2 c3 : UInt8} (hlead : c.toNat / 8 = 30)
    (h : utf8Point (c &&& 0x07) 0x10000 [c1, c2, c3] = true) :
    ∃ ch : Char, [c, c1, c2, c3] = String.utf8EncodeChar ch := by
  rw [utf8Point_iff, low_three] at h
  simp only [pointOf, List.foldl_cons, List.foldl_nil, List.mem_cons, List.not_mem_nil, or_false, forall_eq_or_imp,
    forall_eq] at h
  obtain ⟨⟨h1, h2, h3⟩, hleast, hval⟩ := h
  obtain ⟨ch, hch⟩ := Utf8.exists_char _ hval
  refine ⟨ch, Utf8.eq_utf8EncodeChar ?_⟩
  rw [hch]
  unfold Utf8.octets
  rw [if_neg (by omega), if_neg (by omega), if_neg (by omega)]
  simp only [List.map_cons, List.map_nil, List.cons.injEq, and_true]
  omega

/-- **What the loop goes past is one scalar value.** -/
theorem validUtf8_first (c : UInt8) (rest : Bytes) (h : validUtf8 (c :: rest) = true) :
    ∃ (ch : Char) (more : Bytes), c :: rest = String.utf8EncodeChar ch ++ more ∧ validUtf8 more = true ∧
      more.length ≤ rest.length := by
  unfold validUtf8 at h
  split at h
  · next hascii =>
    rw [UInt8.lt_iff_toNat_lt] at hascii
    have hsmall : c.toNat < 128 := hascii
    obtain ⟨ch, hch⟩ := Utf8.exists_char c.toNat (by omega)
    have hone : [c] = String.utf8EncodeChar ch := by
      apply Utf8.eq_utf8EncodeChar
      rw [hch]
      unfold Utf8.octets
      rw [if_pos (by omega)]
      rfl
    exact ⟨ch, rest, by rw [← hone]; rfl, h, Nat.le_refl _⟩
  · split at h
    · next hlead =>
      split at h
      · next c1 more =>
        rw [Bool.and_eq_true] at h
        obtain ⟨ch, hch⟩ := point_two ((lead_two c).mp hlead) h.1
        exact ⟨ch, more, by rw [← hch]; rfl, h.2, by simp⟩
      · cases h
    · split at h
      · next hlead =>
        split at h
        · next c1 c2 more =>
          rw [Bool.and_eq_true] at h
          obtain ⟨ch, hch⟩ := point_three ((lead_three c).mp hlead) h.1
          exact ⟨ch, more, by rw [← hch]; rfl, h.2, by simp; omega⟩
        · cases h
      · split at h
        · next hlead =>
          split at h
          · next c1 c2 c3 more =>
            rw [Bool.and_eq_true] at h
            obtain ⟨ch, hch⟩ := point_four ((lead_four c).mp hlead) h.1
            exact ⟨ch, more, by rw [← hch]; rfl, h.2, by simp; omega⟩
          · cases h
        · cases h

/-- **And it goes past every scalar value.** -/
theorem validUtf8_char (ch : Char) (rest : Bytes) : validUtf8 (String.utf8EncodeChar ch ++ rest) = validUtf8 rest := by
  have hval := Utf8.val_valid ch
  have hoct := Utf8.toNat_utf8EncodeChar ch
  unfold Utf8.octets at hoct
  generalize String.utf8EncodeChar ch = s at hoct ⊢
  by_cases h1 : ch.val.toNat ≤ 0x7F
  · rw [if_pos h1] at hoct
    obtain ⟨c, rfl, hc⟩ := List.map_eq_singleton_iff.mp hoct
    have hascii : c < 0x80 := by
      rw [UInt8.lt_iff_toNat_lt]
      show c.toNat < 128
      omega
    rw [List.singleton_append]
    conv_lhs => unfold validUtf8
    rw [if_pos hascii]
  · rw [if_neg h1] at hoct
    by_cases h2 : ch.val.toNat ≤ 0x7FF
    · rw [if_pos h2, List.map_eq_cons_iff] at hoct
      obtain ⟨c, tail, rfl, hc, htail⟩ := hoct
      obtain ⟨c1, rfl, hc1⟩ := List.map_eq_singleton_iff.mp htail
      have hpoint : utf8Point (c &&& 0x1f) 0x80 [c1] = true := by
        rw [utf8Point_iff, low_five]
        simp only [pointOf, List.foldl_cons, List.foldl_nil, List.mem_singleton, forall_eq]
        exact ⟨by omega, by omega, by omega⟩
      rw [List.cons_append, List.singleton_append]
      conv_lhs => unfold validUtf8
      rw [if_neg (not_ascii (by omega)), if_pos ((lead_two c).mpr (by omega))]
      dsimp only
      rw [hpoint, Bool.true_and]
    · rw [if_neg h2] at hoct
      by_cases h3 : ch.val.toNat ≤ 0xFFFF
      · rw [if_pos h3, List.map_eq_cons_iff] at hoct
        obtain ⟨c, tail, rfl, hc, htail⟩ := hoct
        obtain ⟨c1, tail, rfl, hc1, htail⟩ := List.map_eq_cons_iff.mp htail
        obtain ⟨c2, rfl, hc2⟩ := List.map_eq_singleton_iff.mp htail
        have hpoint : utf8Point (c &&& 0x0f) 0x800 [c1, c2] = true := by
          rw [utf8Point_iff, low_four]
          simp only [pointOf, List.foldl_cons, List.foldl_nil, List.mem_cons, List.not_mem_nil, or_false,
            forall_eq_or_imp, forall_eq]
          exact ⟨by omega, by omega, by omega⟩
        rw [List.cons_append, List.cons_append, List.singleton_append]
        conv_lhs => unfold validUtf8
        rw [if_neg (not_ascii (by omega)), if_neg (mt (lead_two c).mp (by omega)),
          if_pos ((lead_three c).mpr (by omega))]
        dsimp only
        rw [hpoint, Bool.true_and]
      · rw [if_neg h3, List.map_eq_cons_iff] at hoct
        obtain ⟨c, tail, rfl, hc, htail⟩ := hoct
        obtain ⟨c1, tail, rfl, hc1, htail⟩ := List.map_eq_cons_iff.mp htail
        obtain ⟨c2, tail, rfl, hc2, htail⟩ := List.map_eq_cons_iff.mp htail
        obtain ⟨c3, rfl, hc3⟩ := List.map_eq_singleton_iff.mp htail
        have hpoint : utf8Point (c &&& 0x07) 0x10000 [c1, c2, c3] = true := by
          rw [utf8Point_iff, low_three]
          simp only [pointOf, List.foldl_cons, List.foldl_nil, List.mem_cons, List.not_mem_nil, or_false,
            forall_eq_or_imp, forall_eq]
          exact ⟨by omega, by omega, by omega⟩
        rw [List.cons_append, List.cons_append, List.cons_append, List.singleton_append]
        conv_lhs => unfold validUtf8
        rw [if_neg (not_ascii (by omega)), if_neg (mt (lead_two c).mp (by omega)),
          if_neg (mt (lead_three c).mp (by omega)), if_pos ((lead_four c).mpr (by omega))]
        dsimp only
        rw [hpoint, Bool.true_and]

/-! ## Names -/

/-- **Well-formed strings** are the encodings of scalar values. -/
theorem validUtf8_iff (s : Bytes) : validUtf8 s = true ↔ ∃ cs : List Char, s = Utf8.encode cs := by
  constructor
  · intro h
    induction hn : s.length using Nat.strongRecOn generalizing s with
    | ind n ih =>
      cases s with
      | nil => exact ⟨[], rfl⟩
      | cons c rest =>
        obtain ⟨ch, more, hsplit, hmore, hlen⟩ := validUtf8_first c rest h
        rw [List.length_cons] at hn
        obtain ⟨cs, rfl⟩ := ih more.length (by omega) more hmore rfl
        exact ⟨ch :: cs, by rw [hsplit, Utf8.encode_cons]⟩
  · rintro ⟨cs, rfl⟩
    induction cs with
    | nil => rfl
    | cons c cs ih => rw [Utf8.encode_cons, validUtf8_char, ih]

/-- The sign of `name_cmp` is the order of the scalar values. -/
structure ComparedAs (r : Ordering) (cs ds : List Char) : Prop where
  lt : r = .lt ↔ cs < ds
  eq : r = .eq ↔ cs = ds
  gt : r = .gt ↔ ds < cs

theorem nameCmp_compares {a b : CStr} {cs ds : List Char} (ha : a.bytes = Utf8.encode cs)
    (hb : b.bytes = Utf8.encode ds) : ComparedAs (nameCmp a b) cs ds := by
  unfold nameCmp
  rw [ha, hb]
  constructor
  · rw [lexcmp_eq_lt, Utf8.encode_lt_iff]
  · rw [lexcmp_eq_eq]
    constructor
    · exact Utf8.encode_inj
    · rintro rfl
      rfl
  · rw [lexcmp_eq_gt, Utf8.encode_lt_iff]

/-- **Names follow Unicode**: what is well formed, how two names that are compare, and that this is a strict total
order of names. -/
theorem names_follow_unicode :
    (∀ s : CStr, validUtf8 s.bytes = true ↔ ∃ cs : List Char, s.bytes = cs.flatMap String.utf8EncodeChar) ∧
    (∀ (a b : CStr) (cs ds : List Char), a.bytes = cs.flatMap String.utf8EncodeChar →
      b.bytes = ds.flatMap String.utf8EncodeChar → ComparedAs (nameCmp a b) cs ds) ∧
    (∀ a b : CStr, (nameCmp a b = .eq ↔ a = b) ∧ (nameCmp a b = .gt ↔ nameCmp b a = .lt)) ∧
    (∀ a b c : CStr, nameCmp a b = .lt → nameCmp b c = .lt → nameCmp a c = .lt) := by
  refine ⟨fun s => validUtf8_iff s.bytes, fun a b cs ds ha hb => nameCmp_compares ha hb, ?_, nameCmp_lt_trans⟩
  exact fun a b => ⟨nameCmp_eq a b, nameCmp_gt a b⟩

/-- The names `a` and `€`. -/
theorem names_follow_unicode_euro :
    ComparedAs (nameCmp ⟨[0x61], by decide⟩ ⟨[0xE2, 0x82, 0xAC], by decide⟩) ['a'] ['€'] ∧
      nameCmp ⟨[0x61], by decide⟩ ⟨[0x63], by decide⟩ = .lt :=
  ⟨names_follow_unicode.2.1 ⟨[0x61], by decide⟩ ⟨[0xE2, 0x82, 0xAC], by decide⟩ ['a'] ['€'] (by decide) (by decide),
    names_follow_unicode.2.2.2 ⟨[0x61], by decide⟩ ⟨[0x62], by decide⟩ ⟨[0x63], by decide⟩ (by decide) (by decide)⟩

end Smolvfs
