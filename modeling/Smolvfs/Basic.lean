import Smolvfs.Lib.Order

/-!
# Result codes, C strings and hash strings

The codes of `cas.h`, NUL-terminated strings (`CStr`), and the hex form of a
digest: `to_hex`, `cas_hex_decode` and `valid_hash` of `cas.c`.  An address is
the string of 64 hex digits callers pass around, so its case is kept: the loose
store looks a name up as it is spelled, the pack by its 32 octets.
-/

namespace Smolvfs

open Octets

/-! ## Codes -/

/-- `CAS_OK`, `CAS_ERR`, `CAS_ENOTFOUND`, `CAS_ENOMEM`, `CAS_EIO`, `CAS_ETYPE`. -/
inductive Status
  | ok | err | enotfound | enomem | eio | etype
  deriving DecidableEq, Repr

/-- The `CAS_FSCK_*` codes. -/
inductive FsckStatus
  | ok | corrupt | badname | ioerr | nocodec | reencoded | foreign
  deriving DecidableEq, Repr

def CAS_HASH_LEN : Nat := 32
def CAS_HASH_HEX : Nat := 64
def CAS_TYPE_MAX : Nat := 16

/-! ## C strings -/

/-- The octets of a C string, without the NUL that ends it. -/
structure CStr where
  bytes : Bytes
  noNul : (0 : UInt8) ∉ bytes
  deriving DecidableEq

theorem CStr.ext {a b : CStr} (h : a.bytes = b.bytes) : a = b := by
  cases a
  cases b
  cases h
  rfl

/-- The string a buffer holds: what comes before its first NUL. -/
def CStr.ofBuf (b : Bytes) : CStr where
  bytes := b.takeWhile (· != 0)
  noNul := not_mem_takeWhile_ne b

@[simp] theorem CStr.ofBuf_bytes (s : CStr) : CStr.ofBuf s.bytes = s :=
  CStr.ext (takeWhile_ne s.bytes s.noNul)

/-- A string literal of the source. -/
def lit (cs : List Char) : CStr := CStr.ofBuf (cs.map fun c => UInt8.ofNat c.toNat)

def tBlob : CStr := lit ['b', 'l', 'o', 'b']
def tTree : CStr := lit ['t', 'r', 'e', 'e']
def tHtree : CStr := lit ['h', 't', 'r', 'e', 'e']

/-- `cas_type_is_reencoded` -/
def casTypeIsReencoded (type : CStr) : Bool := type == tHtree

/-! ## Hex -/

/-- `hex_chars[n]` -/
def hexChar (n : Nat) : UInt8 := if n < 10 then UInt8.ofNat (48 + n) else UInt8.ofNat (87 + n)

/-- `to_hex`, `cas_hex_encode` -/
def toHex (bin : Bytes) : Bytes := bin.flatMap fun b => [hexChar (b.toNat / 16), hexChar (b.toNat % 16)]

def hexVal (c : UInt8) : Option Nat :=
  if 48 ≤ c.toNat ∧ c.toNat ≤ 57 then some (c.toNat - 48)
  else if 97 ≤ c.toNat ∧ c.toNat ≤ 102 then some (c.toNat - 97 + 10)
  else if 65 ≤ c.toNat ∧ c.toNat ≤ 70 then some (c.toNat - 65 + 10)
  else none

/-- `cas_hex_decode`: every digit in either case, two to an octet. -/
def casHexDecode : Bytes → Option Bytes
  | [] => some []
  | [_] => none
  | h :: l :: rest =>
    match hexVal h, hexVal l with
    | some hi, some lo => (casHexDecode rest).map (UInt8.ofNat (hi * 16 + lo) :: ·)
    | _, _ => none

/-- `valid_hash` of `cas.c`, `valid_hex_hash` of `cas-tree.c`: 64 hex digits, of either case. -/
def validHash (hash : Bytes) : Bool := hash.length == CAS_HASH_HEX && hash.all fun c => (hexVal c).isSome

/-- A digit `to_hex` writes. -/
def isLowerHex (c : UInt8) : Bool :=
  (decide (48 ≤ c.toNat) && decide (c.toNat ≤ 57)) || (decide (97 ≤ c.toNat) && decide (c.toNat ≤ 102))

/-- A hash string as the code itself writes them: 64 digits in lower case. -/
def LowerHash (hash : Bytes) : Prop := hash.length = CAS_HASH_HEX ∧ ∀ c ∈ hash, isLowerHex c = true

instance (hash : Bytes) : Decidable (LowerHash hash) := inferInstanceAs (Decidable (_ ∧ _))

/-- The addresses `00…0` and `11…1`, for examples. -/
def zeroHash : Bytes := List.replicate 64 48
def oneHash : Bytes := List.replicate 64 49

theorem hexChar_lower : ∀ n, n < 16 → isLowerHex (hexChar n) = true := by decide

theorem hexVal_hexChar : ∀ n, n < 16 → hexVal (hexChar n) = some n := by decide

theorem hexVal_lt (c : UInt8) (n : Nat) (h : hexVal c = some n) : n < 16 := by
  unfold hexVal at h
  split at h
  · obtain rfl := Option.some.inj h
    omega
  · split at h
    · obtain rfl := Option.some.inj h
      omega
    · split at h
      · obtain rfl := Option.some.inj h
        omega
      · cases h

theorem hexVal_of_lower (c : UInt8) (h : isLowerHex c = true) :
    ∃ n, hexVal c = some n ∧ n < 16 ∧ hexChar n = c := by
  unfold isLowerHex at h
  simp only [Bool.or_eq_true, Bool.and_eq_true, decide_eq_true_eq] at h
  rcases h with ⟨h1, h2⟩ | ⟨h1, h2⟩
  · refine ⟨c.toNat - 48, by simp [hexVal, h1, h2], by omega, ?_⟩
    unfold hexChar
    rw [if_pos (by omega), show 48 + (c.toNat - 48) = c.toNat by omega, UInt8.ofNat_toNat]
  · refine ⟨c.toNat - 97 + 10, ?_, by omega, ?_⟩
    · unfold hexVal
      rw [if_neg (by omega), if_pos ⟨h1, h2⟩]
    · unfold hexChar
      rw [if_neg (by omega), show 87 + (c.toNat - 97 + 10) = c.toNat by omega, UInt8.ofNat_toNat]

theorem length_toHex (bin : Bytes) : (toHex bin).length = 2 * bin.length := by
  rw [toHex, length_flatMap_const bin _ 2 (by simp)]
  omega

theorem toHex_cons (b : UInt8) (bs : Bytes) :
    toHex (b :: bs) = hexChar (b.toNat / 16) :: hexChar (b.toNat % 16) :: toHex bs := rfl

theorem toHex_lower (bin : Bytes) : ∀ c ∈ toHex bin, isLowerHex c = true := by
  induction bin with
  | nil => simp [toHex]
  | cons b bs ih =>
    have hb := b.toNat_lt
    intro c hc
    rw [toHex_cons] at hc
    rcases List.mem_cons.mp hc with rfl | hc
    · exact hexChar_lower _ (by omega)
    · rcases List.mem_cons.mp hc with rfl | hc
      · exact hexChar_lower _ (by omega)
      · exact ih c hc

theorem lowerHash_toHex (bin : Bytes) (h : bin.length = CAS_HASH_LEN) : LowerHash (toHex bin) :=
  ⟨by rw [length_toHex, h]; rfl, toHex_lower bin⟩

theorem lowerHash_replicate (c : UInt8) (h : isLowerHex c = true) : LowerHash (List.replicate CAS_HASH_HEX c) :=
  ⟨List.length_replicate, fun d hd => by rw [List.eq_of_mem_replicate hd, h]⟩

theorem casHexDecode_toHex (bin : Bytes) : casHexDecode (toHex bin) = some bin := by
  induction bin with
  | nil => rfl
  | cons b bs ih =>
    have hb := b.toNat_lt
    rw [toHex_cons, casHexDecode, hexVal_hexChar _ (by omega), hexVal_hexChar _ (by omega), ih]
    simp only [Option.map_some]
    rw [show b.toNat / 16 * 16 + b.toNat % 16 = b.toNat by omega, UInt8.ofNat_toNat]

theorem toHex_injective (a b : Bytes) (h : toHex a = toHex b) : a = b := by
  have := congrArg casHexDecode h
  rw [casHexDecode_toHex, casHexDecode_toHex] at this
  exact Option.some.inj this

/-- A string of hex digits decodes; in lower case, encoding gives the string back. -/
theorem casHexDecode_spec (hex : Bytes) (n : Nat) (hl : hex.length = 2 * n)
    (hx : ∀ c ∈ hex, (hexVal c).isSome) :
    ∃ bin, casHexDecode hex = some bin ∧ bin.length = n ∧
      ((∀ c ∈ hex, isLowerHex c = true) → toHex bin = hex) := by
  induction n generalizing hex with
  | zero =>
    obtain rfl : hex = [] := List.eq_nil_of_length_eq_zero (by omega)
    exact ⟨[], rfl, rfl, fun _ => rfl⟩
  | succ n ih =>
    match hex, hl with
    | h :: l :: rest, hl =>
      obtain ⟨bin, hd, hbl, hback⟩ := ih rest (by simp at hl; omega) (fun c hc => hx c (by simp [hc]))
      obtain ⟨hi, hhi⟩ := Option.isSome_iff_exists.mp (hx h (by simp))
      obtain ⟨lo, hlo⟩ := Option.isSome_iff_exists.mp (hx l (by simp))
      have h1 := hexVal_lt h hi hhi
      have h2 := hexVal_lt l lo hlo
      refine ⟨UInt8.ofNat (hi * 16 + lo) :: bin, by simp [casHexDecode, hhi, hlo, hd],
        by simp [hbl], ?_⟩
      intro hlow
      obtain ⟨hi', hv, -, hc⟩ := hexVal_of_lower h (hlow h (by simp))
      obtain ⟨lo', hv', -, hc'⟩ := hexVal_of_lower l (hlow l (by simp))
      rw [hhi] at hv
      rw [hlo] at hv'
      obtain rfl := Option.some.inj hv
      obtain rfl := Option.some.inj hv'
      have hn : (UInt8.ofNat (hi * 16 + lo)).toNat = hi * 16 + lo := by
        rw [UInt8.toNat_ofNat']
        omega
      rw [toHex_cons, hn, show (hi * 16 + lo) / 16 = hi by omega,
        show (hi * 16 + lo) % 16 = lo by omega, hc, hc', hback (fun c hc => hlow c (by simp [hc]))]

theorem length_casHexDecode (hex bin : Bytes) (h : casHexDecode hex = some bin) :
    hex.length = 2 * bin.length := by
  induction hex using casHexDecode.induct generalizing bin with
  | case1 =>
    obtain rfl := Option.some.inj h
    rfl
  | case2 c => cases h
  | case3 hc lc rest hi lo hhi hlo ih =>
    rw [casHexDecode, hhi, hlo] at h
    obtain ⟨rest', hr, rfl⟩ := Option.map_eq_some_iff.mp h
    have := ih rest' hr
    simp only [List.length_cons]
    omega
  | case4 hc lc rest hno =>
    rw [casHexDecode] at h
    split at h
    · next hi lo hhi hlo => exact absurd hlo (hno hi lo hhi)
    · cases h

theorem validHash_iff (hash : Bytes) :
    validHash hash = true ↔ hash.length = 64 ∧ ∀ c ∈ hash, (hexVal c).isSome = true := by
  simp [validHash, CAS_HASH_HEX]

/-- The 32 octets a valid hash string stands for. -/
theorem casHexDecode_of_valid (hash : Bytes) (h : validHash hash = true) :
    ∃ bin, casHexDecode hash = some bin ∧ bin.length = CAS_HASH_LEN := by
  rw [validHash_iff] at h
  obtain ⟨bin, h1, h2, -⟩ := casHexDecode_spec hash 32 h.1 h.2
  exact ⟨bin, h1, h2⟩

theorem LowerHash.valid {hash : Bytes} (h : LowerHash hash) : validHash hash = true := by
  rw [validHash_iff]
  refine ⟨h.1, fun c hc => ?_⟩
  obtain ⟨n, hn, -⟩ := hexVal_of_lower c (h.2 c hc)
  rw [hn]
  rfl

theorem LowerHash.toHex_decode {hash bin : Bytes} (h : LowerHash hash)
    (hb : casHexDecode hash = some bin) : toHex bin = hash ∧ bin.length = CAS_HASH_LEN := by
  obtain ⟨bin', h1, h2, h3⟩ := casHexDecode_spec hash 32 h.1 ((validHash_iff hash).mp h.valid).2
  rw [hb] at h1
  obtain rfl := Option.some.inj h1
  exact ⟨h3 h.2, h2⟩

/-- A hex digit in lower case. -/
def lowerDigit (c : UInt8) : UInt8 := if 65 ≤ c.toNat ∧ c.toNat ≤ 70 then c + 32 else c

theorem hexChar_hexVal (c : UInt8) (n : Nat) (h : hexVal c = some n) : hexChar n = lowerDigit c := by
  have hall : ∀ c : Fin 256, ∀ n, hexVal (UInt8.ofFin c) = some n → hexChar n = lowerDigit (UInt8.ofFin c) := by
    intro c
    have : (hexVal (UInt8.ofFin c)).all fun n => decide (hexChar n = lowerDigit (UInt8.ofFin c)) := by
      revert c
      decide +kernel
    intro n hn
    rw [hn] at this
    simpa using this
  exact hall c.toFin n h

theorem toHex_casHexDecode (hex bin : Bytes) (h : casHexDecode hex = some bin) : toHex bin = hex.map lowerDigit := by
  induction hex using casHexDecode.induct generalizing bin with
  | case1 =>
    obtain rfl := Option.some.inj h
    rfl
  | case2 c => cases h
  | case3 hc lc rest hi lo hlo hhi ih =>
    rw [casHexDecode, hhi, hlo] at h
    obtain ⟨rest', hr, rfl⟩ := Option.map_eq_some_iff.mp h
    have h1 := hexVal_lt hc hi hhi
    have h2 := hexVal_lt lc lo hlo
    have hn : (UInt8.ofNat (hi * 16 + lo)).toNat = hi * 16 + lo := by
      rw [UInt8.toNat_ofNat']
      omega
    rw [toHex_cons, hn, show (hi * 16 + lo) / 16 = hi by omega, show (hi * 16 + lo) % 16 = lo by omega,
      ih rest' hr, hexChar_hexVal hc hi hhi, hexChar_hexVal lc lo hlo]
    rfl
  | case4 hc lc rest hno =>
    rw [casHexDecode] at h
    split at h
    · next hi lo hhi hlo => exact absurd hlo (hno hi lo hhi)
    · cases h

end Smolvfs
