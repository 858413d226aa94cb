import Smolvfs.Header

/-!
# Codecs

The compile-time codec table of `cas-codec.c` and the decoding of an object's
data region.  The table is a parameter: the entries the build adds after
`CAS_CODEC_NONE` (the bundled DEFLATE, an application's own).  A decoder gets
the payload and the plaintext length it must produce, an encoder the plaintext
and the room it has; `none` is their `CAS_ERR`.

`RoundTrips` is what the table must satisfy for compression to be lossless:
what an encoder wrote, the decoder found under the same tag gives back.
-/

namespace Smolvfs

open Octets

def CAS_CODEC_NONE : Int := 0x25

/-- One entry of the table, under the tag byte that selects it; `encode` may be absent. -/
structure Codec where
  tag : Int
  tag_byte : 0 ≤ tag ∧ tag ≤ 255
  decode : Option (Bytes → Nat → Option Bytes)
  encode : Option (Bytes → Nat → Option Bytes)

/-- `CAS_CODEC_LIST` as built. -/
abbrev Codecs := List Codec

/-- `codec_find` over `codec_table`, whose first entry is the placeholder for `CAS_CODEC_NONE`. -/
def codecFind (cs : Codecs) (tag : Int) : Option Codec :=
  (⟨CAS_CODEC_NONE, by decide, none, none⟩ :: cs).find? fun c => decide (c.tag = tag)

/-- The `CAS_COMPRESS_*` modes. -/
inductive Policy
  | never | always | guess
  deriving DecidableEq, Repr

def CAS_TEXT_SNIFF : Nat := 512
def CAS_TEXT_MAX_NONTEXT_PCT : Nat := 10

/-- `looks_text` -/
def looksText (data : Bytes) : Bool :=
  if data.length = 0 then false
  else
    let seen := data.take CAS_TEXT_SNIFF
    let nontext := seen.countP fun c =>
      decide (c.toNat ≤ 0x08) || (decide (0x0e ≤ c.toNat) && decide (c.toNat ≤ 0x1f)) || c == 0x7f
    decide (nontext * 100 ≤ seen.length * CAS_TEXT_MAX_NONTEXT_PCT)

/-- `cas_codec_policy` -/
def casCodecPolicy (policy : Policy) (codec : Int) (data : Bytes) : Int :=
  match policy with
  | .always => codec
  | .guess => if looksText data then codec else CAS_CODEC_NONE
  | .never => CAS_CODEC_NONE

/-- `cas_codec_can_encode` -/
def casCodecCanEncode (cs : Codecs) (codec : Int) : Bool :=
  if codec = CAS_CODEC_NONE then true
  else (codecFind cs codec).any fun c => c.encode.isSome

/-- `cas_codec_decode` -/
def casCodecDecode (cs : Codecs) (codec : Int) (inp : Bytes) (outlen : Nat) : Except Status Bytes :=
  if codec = CAS_CODEC_NONE then (if inp.length ≠ outlen then .error .err else .ok inp)
  else
    match (codecFind cs codec).bind Codec.decode with
    | none => .error .etype
    | some decode =>
      match decode inp outlen with
      | none => .error .err
      | some data => .ok data

/-- `cas_codec_encode`; `room` is `*outlen` on entry. -/
def casCodecEncode (cs : Codecs) (codec : Int) (inp : Bytes) (room : Nat) : Except Status Bytes :=
  if codec = CAS_CODEC_NONE then (if room < inp.length then .error .err else .ok inp)
  else
    match (codecFind cs codec).bind Codec.encode with
    | none => .error .etype
    | some encode =>
      match encode inp room with
      | none => .error .err
      | some payload => .ok payload

def CAS_CODEC_MAX_PLAINTEXT : Nat := 100 * 2 ^ 20
def CAS_CODEC_MAX_RATIO : Nat := 256

/-- `cas_codec_region_decode`; `noBuf` says that the buffer for the plaintext cannot be had. -/
def casCodecRegionDecode (cs : Codecs) (noBuf : Bool) (region : Bytes) (framed : Bool)
    (plaintextLen : Nat) : Except Status Bytes :=
  if framed = false then (if region.length ≠ plaintextLen then .error .err else .ok region)
  else
    match region with
    | [] => .error .err
    | tag :: payload =>
      if (tag.toNat : Int) = CAS_CODEC_NONE then
        (if payload.length ≠ plaintextLen then .error .err else .ok payload)
      else if plaintextLen = 0 then .ok []
      else if payload.length = 0 ∨ plaintextLen > CAS_CODEC_MAX_PLAINTEXT ∨
          plaintextLen / payload.length > CAS_CODEC_MAX_RATIO then .error .err
      else if noBuf then .error .enomem
      else casCodecDecode cs tag.toNat payload plaintextLen

/-- A region that decodes with its buffer at hand decodes on a machine without faults. -/
theorem regionDecode_noBuf (cs : Codecs) (noBuf : Bool) (region : Bytes) (framed : Bool) (n : Nat) (data : Bytes)
    (h : casCodecRegionDecode cs noBuf region framed n = .ok data) :
    casCodecRegionDecode cs false region framed n = .ok data := by
  cases noBuf with
  | false => exact h
  | true =>
    unfold casCodecRegionDecode at h ⊢
    by_cases hf : framed = false
    · rw [if_pos hf] at h ⊢
      exact h
    · rw [if_neg hf] at h ⊢
      cases region with
      | nil => cases h
      | cons tag payload =>
        simp only [if_true] at h ⊢
        split at h
        · next ht => rw [if_pos ht]; exact h
        · next ht =>
          rw [if_neg ht]
          split at h
          · next h0 => rw [if_pos h0]; exact h
          · split at h <;> cases h

theorem codecFind_byte (cs : Codecs) (tag : Int) (c : Codec) (h : codecFind cs tag = some c) :
    0 ≤ tag ∧ tag ≤ 255 := by
  have ht := List.find?_some h
  simp only [decide_eq_true_eq] at ht
  rw [← ht]
  exact c.tag_byte

theorem encode_byte (cs : Codecs) (codec : Int) (inp payload : Bytes) (room : Nat)
    (hn : codec ≠ CAS_CODEC_NONE) (h : casCodecEncode cs codec inp room = .ok payload) :
    0 ≤ codec ∧ codec ≤ 255 := by
  unfold casCodecEncode at h
  rw [if_neg hn] at h
  cases hf : codecFind cs codec with
  | none => simp [hf] at h
  | some c => exact codecFind_byte cs codec c hf

/-- Every decoder inverts its encoder: the decoder of a tag gives back what the encoder was given. -/
def Codecs.RoundTrips (cs : Codecs) : Prop :=
  ∀ (codec : Int) (inp payload : Bytes) (room : Nat), codec ≠ CAS_CODEC_NONE →
    casCodecEncode cs codec inp room = .ok payload → casCodecDecode cs codec payload inp.length = .ok inp

theorem roundTrips_nil : Codecs.RoundTrips [] := by
  intro codec inp payload room hn he
  have hf : codecFind [] codec = none := by
    unfold codecFind
    simp [Ne.symm hn]
  simp [casCodecEncode, hn, hf] at he

/-- A decoder that succeeds has filled its buffer. -/
def Codecs.Exact (cs : Codecs) : Prop :=
  ∀ c ∈ cs, ∀ decode ∈ c.decode, ∀ (inp : Bytes) (outlen : Nat), ∀ data ∈ decode inp outlen, data.length = outlen

theorem exact_nil : Codecs.Exact [] := by
  intro c hc
  cases hc

theorem decode_length (cs : Codecs) (hx : cs.Exact) (codec : Int) (inp : Bytes) (n : Nat) (data : Bytes)
    (h : casCodecDecode cs codec inp n = .ok data) : data.length = n := by
  unfold casCodecDecode at h
  split at h
  · split at h
    · cases h
    · next hlen =>
      obtain rfl := Except.ok.inj h
      exact not_not.mp hlen
  · split at h
    · cases h
    · next decode hfind =>
      split at h
      · cases h
      · next data' hdec =>
        obtain rfl := Except.ok.inj h
        obtain ⟨c, hc, hd⟩ := Option.bind_eq_some_iff.mp hfind
        rcases List.mem_cons.mp (List.mem_of_find?_eq_some hc) with rfl | hmem
        · cases hd
        · exact hx c hmem decode hd inp n _ hdec

/-- What a region decodes to has the length the header gives. -/
theorem regionDecode_length (cs : Codecs) (hx : cs.Exact) (noBuf : Bool) (region : Bytes) (framed : Bool) (n : Nat)
    (data : Bytes) (h : casCodecRegionDecode cs noBuf region framed n = .ok data) : data.length = n := by
  unfold casCodecRegionDecode at h
  split at h
  · split at h
    · cases h
    · next hlen =>
      obtain rfl := Except.ok.inj h
      exact not_not.mp hlen
  · split at h
    · cases h
    · split at h
      · split at h
        · cases h
        · next hlen =>
          obtain rfl := Except.ok.inj h
          exact not_not.mp hlen
      · split at h
        · next hzero =>
          obtain rfl := Except.ok.inj h
          rw [hzero, List.length_nil]
        · split at h
          · cases h
          · split at h
            · cases h
            · exact decode_length cs hx _ _ n data h

/-- The compressed form of `data` is one the reader's caps let through. -/
def WithinCaps (data payload : Bytes) : Prop :=
  payload.length ≠ 0 ∧ data.length ≤ CAS_CODEC_MAX_PLAINTEXT ∧
    data.length / payload.length ≤ CAS_CODEC_MAX_RATIO

instance (data payload : Bytes) : Decidable (WithinCaps data payload) :=
  inferInstanceAs (Decidable (_ ∧ _))

@[simp] theorem regionDecode_raw (cs : Codecs) (noBuf : Bool) (region : Bytes) (n : Nat) :
    casCodecRegionDecode cs noBuf region false n =
      if region.length = n then .ok region else .error .err := by
  unfold casCodecRegionDecode
  by_cases h : region.length = n <;> simp [h]

theorem decode_ne_enotfound (cs : Codecs) (codec : Int) (inp : Bytes) (n : Nat) :
    casCodecDecode cs codec inp n ≠ .error .enotfound := by
  unfold casCodecDecode
  split
  · split <;> simp
  · split
    · simp
    · split <;> simp

/-- Decoding a region never fails for want of the object. -/
theorem regionDecode_ne_enotfound (cs : Codecs) (noBuf : Bool) (region : Bytes) (framed : Bool) (n : Nat) :
    casCodecRegionDecode cs noBuf region framed n ≠ .error .enotfound := by
  unfold casCodecRegionDecode
  split
  · split <;> simp
  · split
    · simp
    · split
      · split <;> simp
      · split
        · simp
        · split
          · simp
          · split
            · simp
            · exact decode_ne_enotfound cs _ _ _

theorem regionDecode_map_ne_enotfound {β : Type} (cs : Codecs) (noBuf : Bool) (region : Bytes) (framed : Bool)
    (n : Nat) (f : Bytes → β) :
    (casCodecRegionDecode cs noBuf region framed n).map f ≠ .error .enotfound := by
  have h := regionDecode_ne_enotfound cs noBuf region framed n
  cases hd : casCodecRegionDecode cs noBuf region framed n with
  | ok d => simp [Except.map]
  | error e =>
    rw [hd] at h
    simpa [Except.map] using h

/-- A region holding an encoder's output decodes exactly when it is within the reader's caps. -/
theorem regionDecode_encoded (cs : Codecs) (hr : cs.RoundTrips) (codec : Int) (hn : codec ≠ CAS_CODEC_NONE)
    (data payload : Bytes) (room : Nat) (hd : data ≠ [])
    (he : casCodecEncode cs codec data room = .ok payload) :
    casCodecRegionDecode cs false (UInt8.ofNat codec.toNat :: payload) true data.length =
      if WithinCaps data payload then .ok data else .error .err := by
  have hb := encode_byte cs codec data payload room hn he
  have htag : (((UInt8.ofNat codec.toNat).toNat : Nat) : Int) = codec := by
    rw [UInt8.toNat_ofNat']
    omega
  have hlen : data.length ≠ 0 := by simpa using hd
  unfold casCodecRegionDecode
  simp only [Bool.true_eq_false, if_false, htag, hn, hlen, Bool.false_eq_true]
  by_cases hc : WithinCaps data payload
  · rw [if_pos hc, if_neg]
    · exact hr codec data payload room hn he
    · obtain ⟨h1, h2, h3⟩ := hc
      omega
  · rw [if_neg hc, if_pos]
    unfold WithinCaps at hc
    omega

end Smolvfs
