import Smolvfs.Blake2bSpec

/-!
# What an address says of an object

A header ends at the first NUL and its length begins behind the last blank, so header
and data are told apart again wherever the two meet (`framed_inj`).  The two readers
of a header differ in their cap alone, and what the one with the cap takes the other
takes too (`packParseHeader_of_parse`).

`framing_separates`: an address commits to one type and one content, or there is a
collision of the hash.
-/

namespace Smolvfs

open Octets Numeral

/-! ## Header and data -/

theorem printNat_inj {n m : Nat} (h : printNat 10 n = printNat 10 m) : n = m := by
  have hn := scanNat_printNat 10 n (by omega) (by omega) [] (stopsDigits_nil 10)
  have hm := scanNat_printNat 10 m (by omega) (by omega) [] (stopsDigits_nil 10)
  rw [h, hm] at hn
  exact (Prod.mk.inj hn).1.symm

/-- The length is told by the last blank, which may be one of several. -/
theorem headerText_inj {t1 t2 : CStr} {n1 n2 : Nat} (h : headerText t1 n1 = headerText t2 n2) : t1 = t2 ∧ n1 = n2 := by
  have hfree : ∀ n, (32 : UInt8) ∉ (printNat 10 n).reverse := by
    intro n hmem
    have hdigit := printNat_isDigit 10 n (by omega) (by omega) 32 (List.mem_reverse.mp hmem)
    exact (isDigit_ne 10 32 hdigit).2.2.2.2.2 rfl
  have hrev := congrArg List.reverse h
  unfold headerText at hrev
  rw [List.reverse_append, List.reverse_append, List.reverse_cons, List.reverse_cons, List.append_assoc,
    List.append_assoc, List.singleton_append, List.singleton_append] at hrev
  obtain ⟨hn, ht⟩ := append_sep_inj 32 (hfree n1) (hfree n2) hrev
  exact ⟨CStr.ext (List.reverse_injective ht), printNat_inj (List.reverse_injective hn)⟩

/-- **Header and data are told apart**, whatever the data look like. -/
theorem framed_inj {t1 t2 : CStr} {d1 d2 h1 h2 : Bytes} (hf1 : formatHeader t1 d1.length = some h1)
    (hf2 : formatHeader t2 d2.length = some h2) (h : h1 ++ d1 = h2 ++ d2) : t1 = t2 ∧ d1 = d2 := by
  obtain ⟨rfl, -⟩ := formatHeader_spec t1 _ h1 hf1
  obtain ⟨rfl, -⟩ := formatHeader_spec t2 _ h2 hf2
  rw [List.append_assoc, List.append_assoc, List.singleton_append, List.singleton_append] at h
  obtain ⟨htext, hdata⟩ := append_sep_inj 0 (headerText_noNul t1 _) (headerText_noNul t2 _) h
  exact ⟨(headerText_inj htext).1, hdata⟩

/-! ## The two readers -/

/-- A number within the cap of one reader is read by the other. -/
theorem headerDigits_uncapped (c : Nat) (ds : Bytes) (acc n : Nat) (h : headerDigits (some c) acc ds = some n) :
    headerDigits none acc ds = some n := by
  induction ds generalizing acc with
  | nil => exact h
  | cons d ds ih =>
    unfold headerDigits at h ⊢
    split at h
    · cases h
    · next hd =>
      rw [if_neg hd]
      dsimp only at h ⊢
      split at h
      · cases h
      · next hfits =>
        rw [not_or] at hfits
        rw [if_neg (by simp only [not_or, Option.any_none]; exact ⟨hfits.1, by simp⟩)]
        exact ih _ h

theorem packParseHeader_of_parse {hdr : Bytes} {type : CStr} {n : Nat} (h : parseHeader hdr = some (type, n)) :
    packParseHeader hdr = some (type, n) := by
  unfold parseHeader parseHeaderWith at h
  unfold packParseHeader parseHeaderWith
  dsimp only at h ⊢
  split at h
  · cases h
  · next h1 =>
    rw [if_neg h1]
    split at h
    · cases h
    · next h2 =>
      rw [if_neg h2]
      split at h
      · cases h
      · next h3 =>
        rw [if_neg h3]
        split at h
        · cases h
        · next h4 =>
          rw [if_neg h4]
          obtain ⟨len, hlen, heq⟩ := Option.map_eq_some_iff.mp h
          rw [headerDigits_uncapped _ _ _ _ hlen, Option.map_some, heq]

/-- What was written is read, up to the cap. -/
theorem parse_trailer {type : CStr} {n : Nat} {hdr : Bytes} (magic : Bytes) (hmagic : magic.length = 8)
    (hspace : (32 : UInt8) ∉ type.bytes) (hn : n ≤ 2 ^ 30) (h : formatHeader type n = some hdr) :
    parseHeader (trailerHeader (mkTrailer magic hdr)) = some (type, n) := by
  obtain ⟨-, -, -, hle⟩ := formatHeader_spec type n hdr h
  unfold parseHeader
  rw [trailerHeader_mkTrailer magic hdr hmagic (by omega), parseHeaderWith_format _ type n hdr h, if_neg hspace,
    headerDigits_printNat _ n (by simpa using hn) (by omega)]
  rfl

/-! ## Addresses -/

/-- Two different messages, each fed in two pieces, that have one digest. -/
def Collision : Prop := ∃ h d h' d' : Bytes, h ++ d ≠ h' ++ d' ∧ digest2 h d = digest2 h' d'

/-- **An address is of one object**, or the hash has collided. -/
theorem casHashObject_inj {t1 t2 : CStr} {d1 d2 hash : Bytes} (h1 : casHashObject t1 d1 = .ok hash)
    (h2 : casHashObject t2 d2 = .ok hash) : (t1 = t2 ∧ d1 = d2) ∨ Collision := by
  have hformat : ∀ t d, casHashObject t d = .ok hash →
      ∃ hdr, formatHeader t d.length = some hdr ∧ toHex (digest2 hdr d) = hash := by
    intro t d h
    unfold casHashObject at h
    split at h
    · cases h
    · next hdr hf => exact ⟨hdr, hf, Except.ok.inj h⟩
  obtain ⟨hdr1, hf1, hd1⟩ := hformat t1 d1 h1
  obtain ⟨hdr2, hf2, hd2⟩ := hformat t2 d2 h2
  by_cases hsame : hdr1 ++ d1 = hdr2 ++ d2
  · exact Or.inl (framed_inj hf1 hf2 hsame)
  · exact Or.inr ⟨hdr1, d1, hdr2, d2, hsame, toHex_injective _ _ (hd1.trans hd2.symm)⟩

end Smolvfs
