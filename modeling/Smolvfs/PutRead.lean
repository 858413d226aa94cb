import Smolvfs.Reading

/-!
# What a put leaves behind

A put that succeeds on a new address leaves one loose file there.  Whether the
reader takes that file depends on limits the writer does not check:

* the header is split at its first blank, so a type with a blank in it is lost;
* a loose file is at most 1 GiB with its trailer;
* a compressed object is at most 100 MiB and 256 times its payload.

`RawFits` and `EncodedFits` say that an object is within them, and
`put_readable_iff` that these limits are all there is to it.
-/

namespace Smolvfs

open Octets Numeral

/-- The reader's limits for an object stored as it is. -/
def RawFits (type : CStr) (data : Bytes) : Prop :=
  (32 : UInt8) ∉ type.bytes ∧ data.length + CAS_PACK_BLOCK ≤ 2 ^ 30

/-- The reader's limits for an object stored as an encoder's payload. -/
def EncodedFits (type : CStr) (data payload : Bytes) : Prop :=
  (32 : UInt8) ∉ type.bytes ∧ WithinCaps data payload

instance (type : CStr) (data : Bytes) : Decidable (RawFits type data) := inferInstanceAs (Decidable (_ ∧ _))

instance (type : CStr) (data payload : Bytes) : Decidable (EncodedFits type data payload) :=
  inferInstanceAs (Decidable (_ ∧ _))

/-! ## Decoding what was written -/

theorem objTrailer_append (region tr : Bytes) (h : tr.length = CAS_PACK_BLOCK) :
    objTrailer (region ++ tr) = tr := by
  unfold objTrailer
  rw [slice_append_right _ _ _ _ (by rw [List.length_append]; omega)]
  have h0 : (region ++ tr).length - CAS_PACK_BLOCK - region.length = 0 := by
    rw [List.length_append]
    omega
  rw [h0, slice_all tr _ h.symm]

theorem objRegion_append (region tr : Bytes) (h : tr.length = CAS_PACK_BLOCK) :
    objRegion (region ++ tr) = region := by
  unfold objRegion
  apply slice_front
  rw [List.length_append]
  omega

theorem length_magic : CAS_PACK_TRAILER_MAGIC.length = 8 ∧ CAS_PACK_TRAILER_MAGIC_V2.length = 8 := by decide

/-- The two magics, by the framing they announce. -/
def framedMagic (framed : Bool) : Bytes :=
  if framed then CAS_PACK_TRAILER_MAGIC_V2 else CAS_PACK_TRAILER_MAGIC

theorem length_framedMagic (framed : Bool) : (framedMagic framed).length = 8 := by
  cases framed <;> decide

theorem trailerFramed_mkTrailer (framed : Bool) (hdr : Bytes) :
    trailerFramed (mkTrailer (framedMagic framed) hdr) = some framed := by
  unfold trailerFramed
  rw [trailerMagic_mkTrailer _ _ (length_framedMagic framed)]
  cases framed <;> decide

/-- A file the writer made, as the loose reader decodes it. -/
theorem looseDecode_written (cs : Codecs) (noBuf framed : Bool) (region hdr : Bytes) (type : CStr)
    (len : Nat) (hh : formatHeader type len = some hdr) :
    looseDecode cs noBuf (region ++ mkTrailer (framedMagic framed) hdr) =
      if (32 : UInt8) ∈ type.bytes then .error .err
      else
        match headerDigits (some (2 ^ 30)) 0 (printNat 10 len) with
        | none => .error .err
        | some n => (casCodecRegionDecode cs noBuf region framed n).map fun data => (type, data) := by
  obtain ⟨-, -, -, hle⟩ := formatHeader_spec type len hdr hh
  have htr := length_mkTrailer (framedMagic framed) hdr (length_framedMagic framed) (by omega)
  unfold looseDecode
  rw [objTrailer_append region _ htr, objRegion_append region _ htr, trailerFramed_mkTrailer framed,
    trailerHeader_mkTrailer _ _ (length_framedMagic framed) (by omega)]
  simp only [parseHeader, parseHeaderWith_format (some (2 ^ 30)) type len hdr hh]
  by_cases hsp : (32 : UInt8) ∈ type.bytes
  · rw [if_pos hsp, if_pos hsp]
  · rw [if_neg hsp, if_neg hsp]
    cases headerDigits (some (2 ^ 30)) 0 (printNat 10 len) <;> rfl

theorem headerDigits_gib (len : Nat) :
    headerDigits (some (2 ^ 30)) 0 (printNat 10 len) = if len ≤ 2 ^ 30 then some len else none := by
  split
  · next h => exact headerDigits_printNat (some (2 ^ 30)) len (by simpa using h) (by omega)
  · next h => exact headerDigits_printNat_none (2 ^ 30) len (by decide) (by omega)

/-- A raw file is read exactly when the object is within the reader's limits. -/
theorem looseRead_raw (cs : Codecs) (type : CStr) (data hdr : Bytes)
    (hh : formatHeader type data.length = some hdr) :
    looseRead cs (data ++ mkTrailer CAS_PACK_TRAILER_MAGIC hdr) =
      if RawFits type data then .ok (type, data) else .error .err := by
  obtain ⟨-, -, -, hle⟩ := formatHeader_spec type data.length hdr hh
  have htr := length_mkTrailer CAS_PACK_TRAILER_MAGIC hdr length_magic.1 (by omega)
  have hd := looseDecode_written cs false false data hdr type data.length hh
  have hm : framedMagic false = CAS_PACK_TRAILER_MAGIC := rfl
  rw [hm, headerDigits_gib] at hd
  have hb : CAS_PACK_BLOCK = 64 := rfl
  unfold looseRead
  rw [hd, List.length_append, htr]
  by_cases hf : RawFits type data
  · obtain ⟨hsp, hsz⟩ := id hf
    rw [if_pos hf, if_neg (by omega), if_neg hsp, if_pos (by omega)]
    simp [Except.map]
  · rw [if_neg hf]
    by_cases hsz : data.length + CAS_PACK_BLOCK ≤ 2 ^ 30
    · have hsp : (32 : UInt8) ∈ type.bytes := by
        by_contra hsp
        exact hf ⟨hsp, hsz⟩
      rw [if_neg (by omega), if_pos hsp]
    · rw [if_pos (by omega)]

/-- A compressed file is read exactly when the object is within the reader's limits. -/
theorem looseRead_encoded (cs : Codecs) (hr : cs.RoundTrips) (type : CStr) (codec : Int)
    (hn : codec ≠ CAS_CODEC_NONE) (data payload hdr : Bytes) (room : Nat)
    (hd : data ≠ []) (hp : payload.length < data.length)
    (he : casCodecEncode cs codec data room = .ok payload)
    (hh : formatHeader type data.length = some hdr) :
    looseRead cs (UInt8.ofNat codec.toNat :: payload ++ mkTrailer CAS_PACK_TRAILER_MAGIC_V2 hdr) =
      if EncodedFits type data payload then .ok (type, data) else .error .err := by
  obtain ⟨-, -, -, hle⟩ := formatHeader_spec type data.length hdr hh
  have htr := length_mkTrailer CAS_PACK_TRAILER_MAGIC_V2 hdr length_magic.2 (by omega)
  have hdec := looseDecode_written cs false true (UInt8.ofNat codec.toNat :: payload) hdr type data.length hh
  have hm : framedMagic true = CAS_PACK_TRAILER_MAGIC_V2 := rfl
  rw [hm, headerDigits_gib] at hdec
  have hreg := regionDecode_encoded cs hr codec hn data payload room hd he
  have hblk : CAS_PACK_BLOCK = 64 := rfl
  unfold looseRead
  rw [hdec, List.length_append, htr, List.length_cons]
  by_cases hf : EncodedFits type data payload
  · obtain ⟨hsp, hc⟩ := id hf
    have hmax : data.length ≤ 100 * 2 ^ 20 := hc.2.1
    rw [if_pos hf, if_neg (by omega), if_neg hsp, if_pos (by omega)]
    simp [hreg, hc, Except.map]
  · rw [if_neg hf]
    split
    · rfl
    · split
      · rfl
      · next hsp =>
        have hc : ¬ WithinCaps data payload := fun hc => hf ⟨hsp, hc⟩
        split
        · rfl
        · next n hn' =>
          split at hn'
          · obtain rfl := Option.some.inj hn'
            rw [hreg, if_neg hc]
            rfl
          · cases hn'

/-! ## The three writers -/

/-- Which writer is called, with what it takes besides the type and the data. -/
inductive Writer
  /-- `cas_put_object` -/
  | put
  /-- `cas_put_object_at` -/
  | putAt (hash : Bytes)
  /-- `cas_put_object_z` under a `cas_compression_config` -/
  | putZ (cfg : CompressConfig) (codec : Int)

def Writer.run (cs : Codecs) (flt : Faults) (st : Store) (type : CStr) (data : Bytes) (now : Int) :
    Writer → Except Status (Store × Bytes)
  | .put => casPutObject flt st type data now
  | .putAt hash => (casPutObjectAt flt st type data hash now).map fun st' => (st', hash)
  | .putZ cfg codec => casPutObjectZ cs cfg flt st type codec data now

/-- The writer finds the address itself. -/
def Writer.computes : Writer → Bool
  | .putAt _ => false
  | _ => true

/-- The object is within the reader's limits, in the form this writer stores it in. -/
def Writer.Fits (cs : Codecs) (flt : Faults) (type : CStr) (data hash : Bytes) : Writer → Prop
  | .putZ cfg codec =>
    match compressWins cs cfg (flt (.scratchObj hash)) codec data with
    | some payload => EncodedFits type data payload
    | none => RawFits type data
  | _ => RawFits type data

/-- The address is new: neither loose nor in the pack. -/
def Fresh (st : Store) (hash : Bytes) : Prop := st.hasLoose hash = false ∧ st.packed hash = false

instance (st : Store) (hash : Bytes) : Decidable (Fresh st hash) := inferInstanceAs (Decidable (_ ∧ _))

theorem fresh_iff (st : Store) (hash : Bytes) (hv : validHash hash = true) :
    Fresh st hash ↔ casExists st hash = false := by
  unfold Fresh casExists
  rw [hv]
  cases st.hasLoose hash <;> cases st.packed hash <;> simp

theorem casExists_of_not_fresh (st : Store) (hash : Bytes) (hv : validHash hash = true) (h : ¬ Fresh st hash) :
    casExists st hash = true := by
  by_contra hex
  exact h ((fresh_iff st hash hv).mpr (by simpa using hex))

theorem not_fresh_iff (st : Store) (hash : Bytes) :
    ¬ Fresh st hash ↔ (st.hasLoose hash || st.packed hash) = true := by
  unfold Fresh
  cases st.hasLoose hash <;> cases st.packed hash <;> simp

theorem Fresh.not_stored {st : Store} {hash : Bytes} (h : Fresh st hash) :
    ¬ (st.hasLoose hash || st.packed hash) = true := by
  rw [h.1, h.2]
  simp

theorem map_ne_ok {α β : Type} (r : Except Status α) (f : α → β) (h : r ≠ .error .ok) : r.map f ≠ .error .ok := by
  cases r with
  | ok a => simp [Except.map]
  | error rc => simpa [Except.map] using h

theorem storeFile_ne_ok (flt : Faults) (st : Store) (hash data : Bytes) (now : Int) :
    storeFile flt st hash data now ≠ .error .ok := by
  unfold storeFile
  repeat' split
  all_goals simp

/-- A put that fails has a code to say so. -/
theorem casPutObject_ne_ok (flt : Faults) (st : Store) (type : CStr) (data : Bytes) (now : Int) :
    casPutObject flt st type data now ≠ .error .ok := by
  unfold casPutObject
  split
  · simp
  · split
    · simp
    · dsimp only
      split
      · simp
      · exact map_ne_ok _ _ (storeFile_ne_ok flt _ _ _ _)

/-- What a new object leaves: the file's contents. -/
theorem casPutObject_fresh (flt : Faults) (st st' : Store) (type : CStr) (data hash : Bytes) (now : Int)
    (h : casPutObject flt st type data now = .ok (st', hash)) (hn : Fresh st hash) :
    ∃ hdr, formatHeader type data.length = some hdr ∧ hash = toHex (digest2 hdr data) ∧
      st' = st.setLoose hash ⟨data ++ mkTrailer CAS_PACK_TRAILER_MAGIC hdr, now⟩ := by
  unfold casPutObject at h
  cases hf : formatHeader type data.length with
  | none => simp [hf] at h
  | some hdr =>
    obtain ⟨-, -, -, hle⟩ := formatHeader_spec type data.length hdr hf
    have h56 : ¬ hdr.length > CAS_PACK_HEADER_LEN := by
      unfold CAS_PACK_HEADER_LEN
      omega
    simp only [hf, if_neg h56] at h
    split at h
    · -- the object was there: the address says otherwise
      next hst =>
      obtain ⟨-, rfl⟩ := Prod.mk.inj (Except.ok.inj h)
      exact absurd hst hn.not_stored
    · cases hs : storeFile flt st (toHex (digest2 hdr data))
          (data ++ mkTrailer CAS_PACK_TRAILER_MAGIC hdr) now with
      | error e => simp [hs, Except.map] at h
      | ok s =>
        rw [hs] at h
        obtain ⟨rfl, rfl⟩ := Prod.mk.inj (Except.ok.inj h)
        exact ⟨hdr, rfl, rfl, storeFile_spec flt st s _ _ now hn.1 hs⟩

theorem casPutObjectAt_fresh (flt : Faults) (st st' : Store) (type : CStr) (data hash : Bytes) (now : Int)
    (h : casPutObjectAt flt st type data hash now = .ok st') (hn : Fresh st hash) :
    validHash hash = true ∧ ∃ hdr, formatHeader type data.length = some hdr ∧
      st' = st.setLoose hash ⟨data ++ mkTrailer CAS_PACK_TRAILER_MAGIC hdr, now⟩ := by
  unfold casPutObjectAt at h
  split at h
  · cases h
  · next hv =>
    cases hf : formatHeader type data.length with
    | none => simp [hf] at h
    | some hdr =>
      simp only [hf] at h
      split at h
      · cases h
      · rw [if_neg hn.not_stored] at h
        exact ⟨by simpa using hv, hdr, rfl, storeFile_spec flt st st' _ _ now hn.1 h⟩

theorem casPutPrecompressed_fresh (flt : Faults) (st st' : Store) (type : CStr) (codec : Int)
    (payload hash : Bytes) (len : Nat) (now : Int)
    (h : casPutPrecompressed flt st type codec payload len hash now = .ok st') (hn : Fresh st hash) :
    ∃ hdr, formatHeader type len = some hdr ∧
      st' = st.setLoose hash
        ⟨UInt8.ofNat codec.toNat :: payload ++ mkTrailer CAS_PACK_TRAILER_MAGIC_V2 hdr, now⟩ := by
  unfold casPutPrecompressed at h
  split at h
  · cases h
  · split at h
    · cases h
    · cases hf : formatHeader type len with
      | none => simp [hf] at h
      | some hdr =>
        simp only [hf] at h
        split at h
        · cases h
        · rw [if_neg hn.not_stored] at h
          exact ⟨hdr, rfl, storeFile_spec flt st st' _ _ now hn.1 h⟩

theorem compressWins_spec (cs : Codecs) (cfg : CompressConfig) (noBuf : Bool) (codec : Int)
    (data payload : Bytes) (h : compressWins cs cfg noBuf codec data = some payload) :
    codec ≠ CAS_CODEC_NONE ∧ casCodecEncode cs codec data data.length = .ok payload ∧
      payload.length < data.length := by
  unfold compressWins at h
  split at h
  · next hc =>
    cases he : casCodecEncode cs codec data data.length with
    | error e => simp [he] at h
    | ok p =>
      simp only [he] at h
      split at h
      · obtain rfl := Option.some.inj h
        exact ⟨hc.2.1, rfl, by omega⟩
      · cases h
  · cases h

theorem casHashObject_spec (type : CStr) (data hash : Bytes) (h : casHashObject type data = .ok hash) :
    ∃ hdr, formatHeader type data.length = some hdr ∧ hash = toHex (digest2 hdr data) := by
  unfold casHashObject at h
  cases hf : formatHeader type data.length with
  | none => simp [hf] at h
  | some hdr =>
    simp only [hf] at h
    exact ⟨hdr, rfl, (Except.ok.inj h).symm⟩

theorem validHash_digest2 (hdr data : Bytes) : validHash (toHex (digest2 hdr data)) = true :=
  (lowerHash_toHex _ (length_digest2 hdr data)).valid

/-- `cas_digest_object` agrees with the address wherever a header fits. -/
theorem fsckDigest_of_header (type : CStr) (data hdr : Bytes)
    (h : formatHeader type data.length = some hdr) :
    fsckDigest type data (toHex (digest2 hdr data)) = .ok := by
  obtain ⟨rfl, -, -, hle⟩ := formatHeader_spec type data.length hdr h
  have hlt : ¬ (headerText type data.length).length ≥ CAS_HEADER_MAX := by
    rw [List.length_append] at hle
    unfold CAS_HEADER_MAX
    simp only [List.length_cons, List.length_nil] at hle
    omega
  unfold fsckDigest casDigestObject
  rw [if_neg hlt, if_pos rfl]

/-- The file's contents read back as the object if `P`, and are refused if not. -/
def ReadsIff (cs : Codecs) (contents : Bytes) (obj : Object) (P : Prop) : Prop :=
  (P → looseRead cs contents = .ok obj) ∧ (¬ P → looseRead cs contents = .error .err)

theorem readsIff_raw (cs : Codecs) (type : CStr) (data hdr : Bytes)
    (hh : formatHeader type data.length = some hdr) :
    ReadsIff cs (data ++ mkTrailer CAS_PACK_TRAILER_MAGIC hdr) (type, data) (RawFits type data) := by
  unfold ReadsIff
  rw [looseRead_raw cs type data hdr hh]
  exact ⟨fun hf => if_pos hf, fun hf => if_neg hf⟩

theorem readsIff_encoded (cs : Codecs) (hr : cs.RoundTrips) (type : CStr) (codec : Int)
    (data payload hdr : Bytes) (cfg : CompressConfig) (noBuf : Bool)
    (hw : compressWins cs cfg noBuf codec data = some payload)
    (hh : formatHeader type data.length = some hdr) :
    ReadsIff cs (UInt8.ofNat codec.toNat :: payload ++ mkTrailer CAS_PACK_TRAILER_MAGIC_V2 hdr) (type, data)
      (EncodedFits type data payload) := by
  obtain ⟨hnone, he, hlt⟩ := compressWins_spec cs cfg _ codec data payload hw
  have hne : data ≠ [] := by
    rintro rfl
    simp at hlt
  unfold ReadsIff
  rw [looseRead_encoded cs hr type codec hnone data payload hdr data.length hne hlt he hh]
  exact ⟨fun hf => if_pos hf, fun hf => if_neg hf⟩

/-- `cas_put_object_z` on a new address: the compressed file if compressing won, the raw one if not. -/
theorem casPutObjectZ_fresh (cs : Codecs) (hr : cs.RoundTrips) (cfg : CompressConfig) (flt : Faults)
    (st st' : Store) (type : CStr) (codec : Int) (data hash : Bytes) (now : Int)
    (h : casPutObjectZ cs cfg flt st type codec data now = .ok (st', hash)) (hn : Fresh st hash) :
    ∃ hdr, formatHeader type data.length = some hdr ∧ hash = toHex (digest2 hdr data) ∧
      ∃ f, st' = st.setLoose hash f ∧
        ReadsIff cs f.data (type, data) ((Writer.putZ cfg codec).Fits cs flt type data hash) := by
  unfold casPutObjectZ at h
  cases hh : casHashObject type data with
  | error e => simp [hh] at h
  | ok hash' =>
    obtain ⟨hdr, hf, hhash⟩ := casHashObject_spec type data hash' hh
    have hv : validHash hash' = true := by
      rw [hhash]
      exact validHash_digest2 hdr data
    simp only [hh] at h
    split at h
    · next hex =>
      obtain ⟨-, rfl⟩ := Prod.mk.inj (Except.ok.inj h)
      rw [(fresh_iff st hash' hv).mp hn] at hex
      cases hex
    · unfold Writer.Fits
      cases hw : compressWins cs cfg (flt (.scratchObj hash')) codec data with
      | some payload =>
        rw [hw] at h
        simp only [] at h
        cases hp : casPutPrecompressed flt st type codec payload data.length hash' now with
        | error e => simp [hp, Except.map] at h
        | ok s =>
          rw [hp] at h
          obtain ⟨rfl, rfl⟩ := Prod.mk.inj (Except.ok.inj h)
          obtain ⟨hdr', hf', rfl⟩ :=
            casPutPrecompressed_fresh flt st s type codec payload hash' data.length now hp hn
          refine ⟨hdr, hf, hhash, _, rfl, ?_⟩
          simp only [hw]
          exact readsIff_encoded cs hr type codec data payload hdr' cfg _ hw hf'
      | none =>
        rw [hw] at h
        simp only [] at h
        cases hp : casPutObjectAt flt st type data hash' now with
        | error e => simp [hp, Except.map] at h
        | ok s =>
          rw [hp] at h
          obtain ⟨rfl, rfl⟩ := Prod.mk.inj (Except.ok.inj h)
          obtain ⟨-, hdr', hf', rfl⟩ := casPutObjectAt_fresh flt st s type data hash' now hp hn
          refine ⟨hdr, hf, hhash, _, rfl, ?_⟩
          simp only [hw]
          exact readsIff_raw cs type data hdr' hf'

/-- Every writer leaves one file at a new address, which is read exactly when the object fits. -/
theorem writer_fresh (cs : Codecs) (hr : cs.RoundTrips) (flt : Faults) (st st' : Store) (w : Writer)
    (type : CStr) (data hash : Bytes) (now : Int)
    (h : w.run cs flt st type data now = .ok (st', hash)) (hn : Fresh st hash) :
    validHash hash = true ∧
      (w.computes = true → ∃ hdr, formatHeader type data.length = some hdr ∧
        hash = toHex (digest2 hdr data)) ∧
      ∃ f, st' = st.setLoose hash f ∧
        ReadsIff cs f.data (type, data) (w.Fits cs flt type data hash) := by
  cases w with
  | put =>
    obtain ⟨hdr, hf, rfl, rfl⟩ := casPutObject_fresh flt st st' type data hash now h hn
    exact ⟨validHash_digest2 hdr data, fun _ => ⟨hdr, hf, rfl⟩, _, rfl, readsIff_raw cs type data hdr hf⟩
  | putAt addr =>
    simp only [Writer.run] at h
    cases hp : casPutObjectAt flt st type data addr now with
    | error e => simp [hp, Except.map] at h
    | ok s =>
      rw [hp] at h
      obtain ⟨rfl, rfl⟩ := Prod.mk.inj (Except.ok.inj h)
      obtain ⟨hv, hdr, hf, rfl⟩ := casPutObjectAt_fresh flt st s type data addr now hp hn
      exact ⟨hv, fun hc => by simp [Writer.computes] at hc, _, rfl, readsIff_raw cs type data hdr hf⟩
  | putZ cfg codec =>
    obtain ⟨hdr, hf, hhash, f, hst, hfits⟩ :=
      casPutObjectZ_fresh cs hr cfg flt st st' type codec data hash now h hn
    refine ⟨?_, fun _ => ⟨hdr, hf, hhash⟩, f, hst, hfits⟩
    rw [hhash]
    exact validHash_digest2 hdr data

/-! ## Reading it back -/

/-- `cas_fsck_object` reports no damage: intact, or of a kind it leaves to the tree layer. -/
def NoDamage (s : FsckStatus) : Prop := s = .ok ∨ s = .reencoded

instance (s : FsckStatus) : Decidable (NoDamage s) := inferInstanceAs (Decidable (_ ∨ _))

/-- What a later read gives at the address a writer returned. -/
theorem writer_open (cs : Codecs) (hr : cs.RoundTrips) (flt : Faults) (st st' : Store) (w : Writer)
    (type : CStr) (data hash : Bytes) (now : Int)
    (h : w.run cs flt st type data now = .ok (st', hash)) (hn : Fresh st hash) :
    (w.Fits cs flt type data hash → casOpenObject cs noFaults st' hash = .ok (type, data) ∧
      (w.computes = true → NoDamage (casFsckObject cs noFaults st' hash))) ∧
    (¬ w.Fits cs flt type data hash → casOpenObject cs noFaults st' hash = .error .err) := by
  obtain ⟨hv, hc, f, rfl, hfit, hunfit⟩ := writer_fresh cs hr flt st st' w type data hash now h hn
  have hopen : casOpenObject cs noFaults (st.setLoose hash f) hash = looseRead cs f.data :=
    casOpenObject_of_loose cs _ hash f hv hn.2 (setLoose_lookup_self st hash f)
  refine ⟨?_, ?_⟩
  · intro hf
    refine ⟨by rw [hopen, hfit hf], ?_⟩
    intro hcomp
    obtain ⟨hdr, hform, rfl⟩ := hc hcomp
    rw [casFsckObject_of_loose cs _ _ f type data hv (setLoose_lookup_self st _ f) (hfit hf)]
    split
    · exact .inr rfl
    · exact .inl (fsckDigest_of_header type data hdr hform)
  · intro hf
    rw [hopen, hunfit hf]

/-! ## A put into a new depot -/

theorem fresh_empty (hash : Bytes) : Fresh Store.empty hash := by
  unfold Fresh Store.hasLoose Store.packed Store.empty
  simp

theorem put_run_empty (cs : Codecs) (type : CStr) (data hdr : Bytes) (now : Int)
    (h : formatHeader type data.length = some hdr) :
    Writer.put.run cs noFaults Store.empty type data now =
      .ok (Store.empty.setLoose (toHex (digest2 hdr data))
        ⟨data ++ mkTrailer CAS_PACK_TRAILER_MAGIC hdr, now⟩, toHex (digest2 hdr data)) := by
  obtain ⟨-, -, -, hle⟩ := formatHeader_spec type data.length hdr h
  have h56 : ¬ hdr.length > CAS_PACK_HEADER_LEN := by
    unfold CAS_PACK_HEADER_LEN
    omega
  unfold Writer.run casPutObject
  simp only [h, if_neg h56, if_neg (fresh_empty (toHex (digest2 hdr data))).not_stored]
  simp [storeFile, noFaults, Except.map]

/-! ## The result -/

/-- **A successful write of a new object is readable exactly when the object is within the limits of
the reader**, for the form it was stored in; then the type and the bytes come back, and a writer that
computed the address left an object the check accepts. -/
theorem put_readable_iff (cs : Codecs) (hr : cs.RoundTrips) (flt : Faults) (st st' : Store) (w : Writer)
    (type : CStr) (data hash : Bytes) (now : Int)
    (h : w.run cs flt st type data now = .ok (st', hash)) (hn : Fresh st hash) :
    (casOpenObject cs noFaults st' hash = .ok (type, data) ∧
      (w.computes = true → NoDamage (casFsckObject cs noFaults st' hash))) ↔
    w.Fits cs flt type data hash := by
  obtain ⟨h1, h2⟩ := writer_open cs hr flt st st' w type data hash now h hn
  refine ⟨?_, h1⟩
  rintro ⟨hopen, -⟩
  by_contra hf
  rw [h2 hf] at hopen
  cases hopen

/-- A blob put into a new depot is within the limits, and so read back and intact. -/
theorem put_readable_hello : ∃ st' hash,
    Writer.put.run [] noFaults Store.empty tBlob [104, 105] 0 = .ok (st', hash) ∧
      casOpenObject [] noFaults st' hash = .ok (tBlob, [104, 105]) ∧
      NoDamage (casFsckObject [] noFaults st' hash) := by
  obtain ⟨hdr, hf⟩ : ∃ hdr, formatHeader tBlob 2 = some hdr := Option.isSome_iff_exists.mp (by decide)
  have hrun := put_run_empty [] tBlob [104, 105] hdr 0 hf
  have hfits : Writer.put.Fits [] noFaults tBlob [104, 105] (toHex (digest2 hdr [104, 105])) :=
    ⟨by decide, by decide⟩
  obtain ⟨hopen, hfsck⟩ := (put_readable_iff [] roundTrips_nil noFaults _ _ Writer.put tBlob [104, 105] _ 0
    hrun (fresh_empty _)).mpr hfits
  exact ⟨_, _, hrun, hopen, hfsck rfl⟩

/-- An empty object of the type `a b` is stored, and the store refuses to read it. -/
theorem put_blank_type_unreadable : ∃ st' hash,
    Writer.put.run [] noFaults Store.empty (lit ['a', ' ', 'b']) [] 0 = .ok (st', hash) ∧
      Fresh Store.empty hash ∧ casOpenObject [] noFaults st' hash = .error .err := by
  obtain ⟨hdr, hf⟩ : ∃ hdr, formatHeader (lit ['a', ' ', 'b']) 0 = some hdr :=
    Option.isSome_iff_exists.mp (by decide)
  have hrun := put_run_empty [] (lit ['a', ' ', 'b']) [] hdr 0 hf
  refine ⟨_, _, hrun, fresh_empty _, ?_⟩
  refine (writer_open [] roundTrips_nil noFaults _ _ Writer.put _ [] _ 0 hrun (fresh_empty _)).2 ?_
  rintro ⟨hsp, -⟩
  exact hsp (by decide)

end Smolvfs
