import Smolvfs.Blake2b
import Smolvfs.Lib.Numeral

/-!
# Object headers, trailers and addresses

An object is hashed and stored under the header `"type len\0"`.  The writer
(`formatHeader`) and the two readers (`parseHeader` of `cas.c`, which stops at
1 GiB, and `packParseHeader` of `cas-pack.c`, which does not) meet in
`parseHeaderWith_format`: a reader gives back the type and the length exactly
when the type has no blank in it and the length is within the reader's cap.
-/

namespace Smolvfs

open Octets Numeral

def CAS_HEADER_MAX : Nat := 32
def CAS_PACK_BLOCK : Nat := 64
def CAS_PACK_MAGIC_LEN : Nat := 8
def CAS_PACK_HEADER_LEN : Nat := 56

def CAS_PACK_TRAILER_MAGIC : Bytes := [0xCB, 0x4F, 0x42, 0x4A, 0xAA, 0x01, 0x00, 0x00]
def CAS_PACK_TRAILER_MAGIC_V2 : Bytes := [0xCB, 0x4F, 0x42, 0x4A, 0xAA, 0x02, 0x00, 0x00]
def CAS_PACK_FOOTER_MAGIC_V1 : Bytes := [0xCB, 0x50, 0x4B, 0x46, 0xAA, 0x01, 0x00, 0x00]

/-! ## Writing -/

/-- `"%s %zu"` -/
def headerText (type : CStr) (len : Nat) : Bytes := type.bytes ++ 32 :: printNat 10 len

/-- `format_header` -/
def formatHeader (type : CStr) (len : Nat) : Option Bytes :=
  if type.bytes = [] then none
  else if type.bytes.length > CAS_TYPE_MAX then none
  else if (headerText type len).length + 1 > CAS_HEADER_MAX then none
  else some (headerText type len ++ [0])

/-- The 64-octet trailer: magic, then the header padded with NULs. -/
def mkTrailer (magic hdr : Bytes) : Bytes :=
  magic ++ (hdr ++ List.replicate (CAS_PACK_HEADER_LEN - hdr.length) 0)

def trailerMagic (tr : Bytes) : Bytes := slice tr 0 CAS_PACK_MAGIC_LEN

def trailerHeader (tr : Bytes) : Bytes := slice tr CAS_PACK_MAGIC_LEN CAS_PACK_HEADER_LEN

/-! ## Parsing -/

/-- The digit loop of `parse_header`, in `size_t` arithmetic; `cap` is the reader's upper bound. -/
def headerDigits (cap : Option Nat) : Nat → Bytes → Option Nat
  | len, [] => some len
  | len, d :: ds =>
    if d.toNat < 48 ∨ 57 < d.toNat then none
    else
      let next := (len * 10 + (d.toNat - 48)) % 2 ^ 64
      if next < len ∨ cap.any (fun c => decide (c < next)) = true then none
      else headerDigits cap next ds

def parseHeaderWith (cap : Option Nat) (hdr : Bytes) : Option (CStr × Nat) :=
  let lim := hdr.take CAS_HEADER_MAX
  if (0 : UInt8) ∉ lim then none
  else
    let s := lim.takeWhile (· != 0)
    if (32 : UInt8) ∉ s then none
    else
      let type := s.takeWhile (· != 32)
      if type.length = 0 ∨ type.length > CAS_TYPE_MAX then none
      else
        let digits := (s.dropWhile (· != 32)).drop 1
        if digits = [] then none
        else (headerDigits cap 0 digits).map fun len => (CStr.ofBuf type, len)

/-- `parse_header` of `cas.c` -/
def parseHeader (hdr : Bytes) : Option (CStr × Nat) := parseHeaderWith (some (2 ^ 30)) hdr

/-- `parse_header` of `cas-pack.c` -/
def packParseHeader (hdr : Bytes) : Option (CStr × Nat) := parseHeaderWith none hdr

/-! ## Addresses -/

/-- `cas_hash_object` -/
def casHashObject (type : CStr) (data : Bytes) : Except Status Bytes :=
  match formatHeader type data.length with
  | none => .error .err
  | some hdr => .ok (toHex (digest2 hdr data))

/-- `cas_digest_object` into a zeroed buffer, as its callers have it: a header that does not fit
leaves the buffer alone. -/
def casDigestObject (type : CStr) (data : Bytes) : Bytes :=
  if (headerText type data.length).length ≥ CAS_HEADER_MAX then List.replicate CAS_HASH_LEN 0
  else digest2 (headerText type data.length ++ [0]) data

/-! ## What was written is read -/

theorem length_mkTrailer (magic hdr : Bytes) (hm : magic.length = 8) (hh : hdr.length ≤ 56) :
    (mkTrailer magic hdr).length = CAS_PACK_BLOCK := by
  simp only [mkTrailer, List.length_append, List.length_replicate, CAS_PACK_HEADER_LEN,
    CAS_PACK_BLOCK]
  omega

theorem trailerMagic_mkTrailer (magic hdr : Bytes) (hm : magic.length = 8) :
    trailerMagic (mkTrailer magic hdr) = magic :=
  slice_front _ _ _ hm.symm

theorem trailerHeader_mkTrailer (magic hdr : Bytes) (hm : magic.length = 8) (hh : hdr.length ≤ 56) :
    trailerHeader (mkTrailer magic hdr) = hdr ++ List.replicate (56 - hdr.length) 0 := by
  have h8 : CAS_PACK_MAGIC_LEN = magic.length + 0 := by rw [hm]; rfl
  unfold trailerHeader mkTrailer
  rw [h8, slice_append_add]
  apply slice_all
  simp only [List.length_append, List.length_replicate, CAS_PACK_HEADER_LEN]
  omega

theorem formatHeader_spec (type : CStr) (len : Nat) (hdr : Bytes) (h : formatHeader type len = some hdr) :
    hdr = headerText type len ++ [0] ∧ type.bytes ≠ [] ∧ type.bytes.length ≤ 16 ∧ hdr.length ≤ 32 := by
  unfold formatHeader at h
  split at h
  · cases h
  · next h1 =>
    split at h
    · cases h
    · next h2 =>
      split at h
      · cases h
      · next h3 =>
        obtain rfl := Option.some.inj h
        simp only [CAS_TYPE_MAX, CAS_HEADER_MAX] at h2 h3
        refine ⟨rfl, h1, by omega, ?_⟩
        simp only [List.length_append, List.length_cons, List.length_nil]
        omega

/-- A header fits while type and digits together are short enough. -/
theorem formatHeader_some (type : CStr) (len k : Nat) (hne : type.bytes ≠ []) (hk : 0 < k)
    (htl : type.bytes.length ≤ 16) (hfit : type.bytes.length + k ≤ 30) (hlen : len < 10 ^ k) :
    formatHeader type len = some (headerText type len ++ [0]) := by
  have hdig := length_printNat_le 10 len k (by omega) hk hlen
  unfold formatHeader
  rw [if_neg hne, if_neg (by unfold CAS_TYPE_MAX; omega), if_neg]
  unfold headerText CAS_HEADER_MAX
  rw [List.length_append, List.length_cons]
  omega

/-- The text of every tree that fits in memory has an address. -/
theorem casHashObject_tree (data : Bytes) (h : data.length < 2 ^ 64) :
    ∃ hash, casHashObject tTree data = .ok hash ∧ LowerHash hash := by
  have hf := formatHeader_some tTree data.length 20 (by decide) (by decide) (by decide) (by decide) (by omega)
  refine ⟨_, by unfold casHashObject; rw [hf], ?_⟩
  exact lowerHash_toHex _ (length_digest2 _ _)

theorem foldl_digits_ge (ds : List Nat) (acc : Nat) :
    acc ≤ ds.foldl (fun a d => a * 10 + d) acc := by
  induction ds generalizing acc with
  | nil => exact Nat.le_refl _
  | cons d ds ih =>
    rw [List.foldl_cons]
    have := ih (acc * 10 + d)
    omega

/-- The digit loop reads the number, as long as no value on the way wraps or passes the cap. -/
theorem headerDigits_map (cap : Option Nat) (ds : List Nat) (hd : ∀ d ∈ ds, d < 10) (acc : Nat)
    (hc : ∀ c ∈ cap, ds.foldl (fun a d => a * 10 + d) acc ≤ c)
    (hw : ds.foldl (fun a d => a * 10 + d) acc < 2 ^ 64) :
    headerDigits cap acc (ds.map digitOctet) = some (ds.foldl (fun a d => a * 10 + d) acc) := by
  induction ds generalizing acc with
  | nil => rfl
  | cons d ds ih =>
    have hd10 := hd d (by simp)
    have hdo := digitOctet_toNat d hd10
    rw [List.foldl_cons] at hc hw ⊢
    have hge := foldl_digits_ge ds (acc * 10 + d)
    rw [List.map_cons, headerDigits, hdo, if_neg (by omega)]
    have hnext : (acc * 10 + (48 + d - 48)) % 2 ^ 64 = acc * 10 + d := by
      rw [Nat.add_sub_cancel_left, Nat.mod_eq_of_lt (by omega)]
    rw [hnext]
    rw [if_neg]
    · exact ih (fun x hx => hd x (by simp [hx])) _ hc hw
    · rintro (h | h)
      · omega
      · obtain ⟨c, hcm, hlt⟩ := (Option.any_eq_true _ _).mp h
        have hle := hc c hcm
        simp only [decide_eq_true_eq] at hlt
        omega

/-- A number past the cap is refused, at the first digit that takes it there. -/
theorem headerDigits_map_none (c : Nat) (hcs : c * 10 + 10 ≤ 2 ^ 64) (ds : List Nat)
    (hd : ∀ d ∈ ds, d < 10) (acc : Nat) (ha : acc ≤ c)
    (hc : c < ds.foldl (fun a d => a * 10 + d) acc) :
    headerDigits (some c) acc (ds.map digitOctet) = none := by
  induction ds generalizing acc with
  | nil => simp at hc; omega
  | cons d ds ih =>
    have hd10 := hd d (by simp)
    have hdo := digitOctet_toNat d hd10
    rw [List.foldl_cons] at hc
    rw [List.map_cons, headerDigits, hdo, if_neg (by omega)]
    have hnext : (acc * 10 + (48 + d - 48)) % 2 ^ 64 = acc * 10 + d := by
      rw [Nat.add_sub_cancel_left, Nat.mod_eq_of_lt (by omega)]
    rw [hnext]
    by_cases hp : c < acc * 10 + d
    · rw [if_pos (by simp [hp])]
    · rw [if_neg (by simp; omega)]
      exact ih (fun x hx => hd x (by simp [hx])) _ (by omega) hc

theorem headerDigits_printNat (cap : Option Nat) (len : Nat) (hc : ∀ c ∈ cap, len ≤ c)
    (hw : len < 2 ^ 64) : headerDigits cap 0 (printNat 10 len) = some len := by
  obtain ⟨ds, hp, -, hd, hv⟩ := printNat_eq_map 10 len (by omega)
  rw [hp, headerDigits_map cap ds hd 0 (by rw [hv]; exact hc) (by rw [hv]; exact hw), hv]

theorem headerDigits_printNat_none (c len : Nat) (hcs : c * 10 + 10 ≤ 2 ^ 64) (h : c < len) :
    headerDigits (some c) 0 (printNat 10 len) = none := by
  obtain ⟨ds, hp, -, hd, hv⟩ := printNat_eq_map 10 len (by omega)
  rw [hp]
  exact headerDigits_map_none c hcs ds hd 0 (by omega) (by rw [hv]; exact h)

theorem headerDigits_nondigit (cap : Option Nat) (s : Bytes) (c : UInt8) (hc : c ∈ s)
    (hd : c.toNat < 48 ∨ 57 < c.toNat) (acc : Nat) : headerDigits cap acc s = none := by
  induction s generalizing acc with
  | nil => cases hc
  | cons x xs ih =>
    unfold headerDigits
    split
    · rfl
    · next hx =>
      simp only []
      split
      · rfl
      · rcases List.mem_cons.mp hc with rfl | hc
        · exact absurd hd hx
        · exact ih hc _

theorem headerText_noNul (type : CStr) (len : Nat) : (0 : UInt8) ∉ headerText type len := by
  unfold headerText
  rw [List.mem_append, List.mem_cons]
  rintro (h | h | h)
  · exact type.noNul h
  · exact absurd h (by decide)
  · exact (isDigit_ne 10 0 (printNat_isDigit 10 len (by omega) (by omega) 0 h)).2.2.2.1 rfl

theorem parseHeaderWith_text (cap : Option Nat) (type : CStr) (len : Nat) (zs : Bytes)
    (hle : (headerText type len).length + 1 ≤ CAS_HEADER_MAX) (hne : type.bytes ≠ [])
    (htl : type.bytes.length ≤ CAS_TYPE_MAX) :
    parseHeaderWith cap (headerText type len ++ 0 :: zs) =
      if (32 : UInt8) ∈ type.bytes then none
      else (headerDigits cap 0 (printNat 10 len)).map fun n => (type, n) := by
  have hlim : (headerText type len ++ 0 :: zs).take CAS_HEADER_MAX =
      headerText type len ++ 0 :: zs.take (CAS_HEADER_MAX - (headerText type len).length - 1) := by
    rw [List.take_append, List.take_of_length_le (by omega)]
    obtain ⟨k, hk⟩ : ∃ k, CAS_HEADER_MAX - (headerText type len).length = k + 1 :=
      ⟨CAS_HEADER_MAX - (headerText type len).length - 1, by omega⟩
    rw [hk, List.take_succ_cons]
    rfl
  have htw := takeWhile_ne_append (headerText type len)
    (zs.take (CAS_HEADER_MAX - (headerText type len).length - 1)) (headerText_noNul type len)
  unfold parseHeaderWith
  simp only [hlim, htw]
  rw [if_neg (by simp), if_neg (by simp [headerText])]
  by_cases hsp : (32 : UInt8) ∈ type.bytes
  · -- the first blank is inside the type, so a second one is left among the digits
    rw [if_pos hsp]
    obtain ⟨a, b, hab, ha⟩ := List.eq_append_cons_of_mem hsp
    have ht : headerText type len = a ++ 32 :: (b ++ 32 :: printNat 10 len) := by
      simp [headerText, hab]
    rw [ht, takeWhile_ne_append a _ ha, dropWhile_ne_append a _ ha, List.drop_one, List.tail_cons,
      headerDigits_nondigit cap (b ++ 32 :: printNat 10 len) 32 (by simp) (by decide) 0]
    simp
  · rw [if_neg hsp]
    unfold headerText
    rw [takeWhile_ne_append type.bytes _ hsp, dropWhile_ne_append type.bytes _ hsp]
    have hl0 : type.bytes.length ≠ 0 := by simpa using hne
    rw [if_neg (by omega), List.drop_one, List.tail_cons, if_neg (printNat_ne_nil 10 len (by omega)),
      CStr.ofBuf_bytes]

/-- What a reader makes of a header the writer wrote. -/
theorem parseHeaderWith_format (cap : Option Nat) (type : CStr) (len : Nat) (hdr : Bytes)
    (h : formatHeader type len = some hdr) :
    parseHeaderWith cap (hdr ++ List.replicate (56 - hdr.length) 0) =
      if (32 : UInt8) ∈ type.bytes then none
      else (headerDigits cap 0 (printNat 10 len)).map fun n => (type, n) := by
  obtain ⟨rfl, hne, htl, hle⟩ := formatHeader_spec type len hdr h
  rw [List.append_assoc, List.singleton_append]
  exact parseHeaderWith_text cap type len _ (by simpa [CAS_HEADER_MAX] using hle) hne htl

/-! ## What was read can be written -/

/-- A number has no more digits than it was read from, whatever wraps. -/
theorem headerDigits_lt (cap : Option Nat) (ds : Bytes) (acc k n : Nat) (ha : acc < 10 ^ k)
    (h : headerDigits cap acc ds = some n) : n < 10 ^ (k + ds.length) := by
  induction ds generalizing acc k with
  | nil =>
    obtain rfl := Option.some.inj h
    exact ha
  | cons d ds ih =>
    unfold headerDigits at h
    split at h
    · cases h
    · next hd =>
      simp only [] at h
      split at h
      · cases h
      · have hmod : (acc * 10 + (d.toNat - 48)) % 2 ^ 64 ≤ acc * 10 + (d.toNat - 48) := Nat.mod_le _ _
        have hpow : 10 ^ (k + 1) = 10 ^ k * 10 := Nat.pow_succ 10 k
        have hlt := ih _ (k + 1) (by omega) h
        rw [List.length_cons, show k + (ds.length + 1) = k + 1 + ds.length by omega]
        exact hlt

/-- **The header of an object that was read fits**: it is at most as long as the one that was parsed. -/
theorem parseHeaderWith_fits (cap : Option Nat) (hdr : Bytes) (type : CStr) (n : Nat)
    (h : parseHeaderWith cap hdr = some (type, n)) : ∃ hdr', formatHeader type n = some hdr' := by
  unfold parseHeaderWith at h
  simp only [] at h
  generalize hlim : hdr.take CAS_HEADER_MAX = lim at h
  have hlen : lim.length ≤ CAS_HEADER_MAX := by
    rw [← hlim]
    exact List.length_take_le _ _
  split at h
  · cases h
  · next hnul =>
    have hstop : (lim.takeWhile (· != 0)).length < lim.length := by
      by_contra hge
      have heq := (List.takeWhile_prefix (p := (· != (0 : UInt8))) (l := lim)).eq_of_length (by
        have := (List.takeWhile_sublist (l := lim) (p := (· != (0 : UInt8)))).length_le
        omega)
      have := List.mem_takeWhile_imp (heq.symm ▸ not_not.mp hnul)
      simp at this
    generalize hs : lim.takeWhile (· != 0) = s at h hstop
    split at h
    · cases h
    · next hblank =>
      split at h
      · cases h
      · next htype =>
        split at h
        · cases h
        · next hdigits =>
          obtain ⟨len, hd, heq⟩ := Option.map_eq_some_iff.mp h
          obtain ⟨rfl, rfl⟩ := Prod.mk.inj heq
          have hsplit : s.takeWhile (· != 32) ++ s.dropWhile (· != 32) = s := List.takeWhile_append_dropWhile
          have hsum := congrArg List.length hsplit
          rw [List.length_append] at hsum
          have hle := headerDigits_lt cap _ 0 0 len (by omega) hd
          rw [Nat.zero_add] at hle
          have hpos : 0 < ((s.dropWhile (· != 32)).drop 1).length := List.length_pos_of_ne_nil hdigits
          have hnum := length_printNat_le 10 len _ (by omega) hpos hle
          rw [List.length_drop] at hnum hpos
          have hzero : (0 : UInt8) ∉ s.takeWhile (· != 32) := by
            intro hm
            have := List.mem_takeWhile_imp (hs ▸ (List.takeWhile_sublist _).subset hm)
            simp at this
          have hbytes : (CStr.ofBuf (s.takeWhile (· != 32))).bytes = s.takeWhile (· != 32) :=
            takeWhile_ne _ hzero
          unfold formatHeader headerText
          rw [hbytes, List.length_append, List.length_cons]
          unfold CAS_TYPE_MAX at htype ⊢
          rw [if_neg (by rintro h0; simp [h0] at htype), if_neg (by omega), if_neg (by omega)]
          exact ⟨_, rfl⟩

end Smolvfs
