import Smolvfs.PackCreate

/-!
# Stored forms and what they read as

A stored form is a data region with its trailer.  A loose file reads as its form
would from a pack (`looseRead_iff_form`), although the two readers parse the
header under different caps, and the old pack reads as the form the packer would
copy from it (`casPackLookup_of_raw`).  `packEntry_read_iff` says when the entry
`pack_create` makes of a form still reads as the object.
-/

namespace Smolvfs

open Octets

/-! ## The two header parsers -/

theorem headerDigits_cap (cap : Nat) (s : Bytes) (acc n : Nat) :
    headerDigits (some cap) acc s = some n ∧ acc ≤ cap ↔ headerDigits none acc s = some n ∧ n ≤ cap := by
  induction s generalizing acc with
  | nil =>
    simp only [headerDigits, Option.some.injEq]
    constructor
    · rintro ⟨rfl, h⟩
      exact ⟨rfl, h⟩
    · rintro ⟨rfl, h⟩
      exact ⟨rfl, h⟩
  | cons d ds ih =>
    unfold headerDigits
    by_cases hd : d.toNat < 48 ∨ 57 < d.toNat
    · simp [hd]
    · simp only [if_neg hd]
      generalize (acc * 10 + (d.toNat - 48)) % 2 ^ 64 = next
      have hrec := ih next
      by_cases hlt : next < acc
      · simp [hlt]
      · by_cases hc : cap < next
        · rw [if_pos (.inr (by simpa using hc)), if_neg (by simpa using hlt)]
          constructor
          · rintro ⟨h, -⟩
            cases h
          · rintro ⟨h1, h2⟩
            have := (hrec.mpr ⟨h1, h2⟩).2
            omega
        · rw [if_neg (by simp; omega), if_neg (by simpa using hlt)]
          constructor
          · rintro ⟨h1, -⟩
            exact hrec.mp ⟨h1, by omega⟩
          · rintro ⟨h1, h2⟩
            exact ⟨(hrec.mpr ⟨h1, h2⟩).1, by omega⟩

theorem parseHeader_iff (hdr : Bytes) (type : CStr) (n : Nat) :
    parseHeader hdr = some (type, n) ↔ packParseHeader hdr = some (type, n) ∧ n ≤ 2 ^ 30 := by
  unfold parseHeader packParseHeader parseHeaderWith
  simp only []
  split
  · simp
  · split
    · simp
    · split
      · simp
      · split
        · simp
        · generalize List.drop 1 _ = digits
          have h := headerDigits_cap (2 ^ 30) digits 0 n
          simp only [Option.map_eq_some_iff, Prod.mk.injEq]
          constructor
          · rintro ⟨m, hm, ht, rfl⟩
            obtain ⟨h1, h2⟩ := h.mp ⟨hm, by omega⟩
            exact ⟨⟨m, h1, ht, rfl⟩, h2⟩
          · rintro ⟨⟨m, hm, ht, rfl⟩, hle⟩
            exact ⟨m, (h.mpr ⟨hm, hle⟩).1, ht, rfl⟩

/-! ## Reads of a stored form -/

/-- The object a data region and its trailer hold, as the pack's reader decodes them. -/
def formRead (cs : Codecs) (src tr : Bytes) : Except Status Object := emittedRead cs false ⟨[], src, tr, 0⟩

theorem emittedRead_ne_enotfound (cs : Codecs) (noBuf : Bool) (e : Emitted) :
    emittedRead cs noBuf e ≠ .error .enotfound := by
  unfold emittedRead
  split
  · simp
  · split
    · simp
    · next framed _ _ type n _ =>
      cases hd : casCodecRegionDecode cs noBuf e.region framed n with
      | ok d => simp [Except.map]
      | error rc =>
        rintro heq
        obtain rfl := Except.error.inj heq
        exact regionDecode_ne_enotfound cs noBuf e.region framed n hd

/-- A region of a file decodes to no more than the file format's limit. -/
theorem regionDecode_bound (cs : Codecs) (region : Bytes) (framed : Bool) (n : Nat) (data : Bytes)
    (hsz : region.length ≤ 2 ^ 30) (h : casCodecRegionDecode cs false region framed n = .ok data) :
    n ≤ 2 ^ 30 := by
  unfold casCodecRegionDecode at h
  split at h
  · split at h
    · cases h
    · omega
  · split at h
    · cases h
    · split at h
      · split at h
        · cases h
        · simp only [List.length_cons] at hsz
          omega
      · split at h
        · omega
        · split at h
          · cases h
          · unfold CAS_CODEC_MAX_PLAINTEXT at *
            omega

/-- **A loose file reads as its region and trailer would from a pack.** -/
theorem looseRead_iff_form (cs : Codecs) (data : Bytes) (obj : Object)
    (hsz : ¬ (data.length < CAS_PACK_BLOCK ∨ data.length > 2 ^ 30)) :
    looseRead cs data = .ok obj ↔ formRead cs (objRegion data) (objTrailer data) = .ok obj := by
  have hreg : (objRegion data).length ≤ 2 ^ 30 := by
    have := length_slice_le data 0 (data.length - CAS_PACK_BLOCK)
    unfold objRegion
    omega
  unfold looseRead formRead emittedRead looseDecode
  rw [if_neg hsz]
  cases hf : trailerFramed (objTrailer data) with
  | none => simp
  | some framed =>
    simp only []
    cases hp : packParseHeader (trailerHeader (objTrailer data)) with
    | none =>
      have hn : parseHeader (trailerHeader (objTrailer data)) = none := by
        cases hq : parseHeader (trailerHeader (objTrailer data)) with
        | none => rfl
        | some th =>
          rw [((parseHeader_iff _ th.1 th.2).mp hq).1] at hp
          cases hp
      simp [hn]
    | some th =>
      obtain ⟨type, n⟩ := th
      simp only []
      by_cases hle : n ≤ 2 ^ 30
      · rw [(parseHeader_iff _ type n).mpr ⟨hp, hle⟩]
      · have hn : parseHeader (trailerHeader (objTrailer data)) = none := by
          cases hq : parseHeader (trailerHeader (objTrailer data)) with
          | none => rfl
          | some th =>
            obtain ⟨h1, h2⟩ := (parseHeader_iff _ th.1 th.2).mp hq
            rw [hp] at h1
            obtain ⟨-, rfl⟩ := Prod.mk.inj (Option.some.inj h1)
            exact absurd h2 hle
        rw [hn]
        cases hd : casCodecRegionDecode cs false (objRegion data) framed n with
        | error e => simp [Except.map]
        | ok d => exact absurd (regionDecode_bound cs _ framed n d hreg hd) hle

/-- The old pack's reader sees what the packer would copy from it. -/
theorem casPackLookup_of_raw (cs : Codecs) (p : Pack) (hash bin src tr : Bytes)
    (hb : casHexDecode hash = some bin) (h : packRawRegion p bin = .ok (src, tr)) :
    casPackLookup cs false p hash = formRead cs src tr := by
  obtain ⟨e, type, n, hf, hoff, rfl, hp, hr, rfl⟩ := packRawRegion_ok p bin src tr h
  unfold casPackLookup formRead emittedRead
  simp only [hb, hf, if_neg hoff, hp]
  cases trailerFramed (p.read (p.entryOffset e) CAS_PACK_BLOCK) with
  | none => rfl
  | some framed =>
    simp only []
    rw [if_neg (by simpa [Pack.regionSize] using hr)]
    rfl

/-! ## Reads of an entry that was made -/

theorem trailerMagic_append (magic hdr : Bytes) (hm : magic.length = 8) : trailerMagic (magic ++ hdr) = magic :=
  slice_front _ _ _ hm.symm

theorem trailerHeader_append (magic hdr : Bytes) (hm : magic.length = 8) (hh : hdr.length = 56) :
    trailerHeader (magic ++ hdr) = hdr := by
  unfold trailerHeader
  rw [slice_append_of_eq magic hdr CAS_PACK_MAGIC_LEN 0 _ (by rw [hm]; rfl)]
  exact slice_all _ _ hh.symm

theorem packEncode_spec (cs : Codecs) (noBuf : Bool) (use : Int) (src payload : Bytes)
    (h : packEncode cs noBuf use src = some payload) :
    use ≠ CAS_CODEC_NONE ∧ casCodecEncode cs use src src.length = .ok payload ∧ src ≠ [] := by
  unfold packEncode at h
  split at h
  · next hc =>
    cases he : casCodecEncode cs use src src.length with
    | error e => simp [he] at h
    | ok p =>
      simp only [he] at h
      split at h
      · next hlt =>
        obtain rfl := Option.some.inj h
        refine ⟨hc.1, rfl, ?_⟩
        rintro rfl
        simp at hlt
      · cases h
  · cases h

theorem packUse_ne (policy : Policy) (codec : Int) (framedIn : Bool) (src : Bytes)
    (h : packUse policy codec framedIn src ≠ CAS_CODEC_NONE) : framedIn = false := by
  unfold packUse at h
  split at h
  · next hc => exact hc.1
  · exact absurd rfl h

/-- A raw form holds its region, if the header says its length. -/
theorem formRead_raw (cs : Codecs) (src tr : Bytes) (type : CStr) (n : Nat)
    (hp : packParseHeader (trailerHeader tr) = some (type, n)) (hf : trailerFramed tr = some false) :
    formRead cs src tr = if src.length = n then .ok (type, src) else .error .err := by
  unfold formRead emittedRead
  simp only [hf, hp, regionDecode_raw]
  split <;> rfl

/-- A region of the length its header says, or with a tag byte in it. -/
def WellFramed (src tr : Bytes) : Prop :=
  ∀ type n framed, packParseHeader (trailerHeader tr) = some (type, n) → trailerFramed tr = some framed →
    if framed then src ≠ [] else src.length = n

/-- What reads is well framed. -/
theorem wellFramed_of_read (cs : Codecs) (src tr : Bytes) (obj : Object) (h : formRead cs src tr = .ok obj) :
    WellFramed src tr := by
  intro type n framed hp hf
  cases framed with
  | false =>
    rw [formRead_raw cs src tr type n hp hf] at h
    split at h
    · next hlen => exact hlen
    · cases h
  | true =>
    rintro rfl
    unfold formRead emittedRead at h
    simp [hf, hp, casCodecRegionDecode, Except.map] at h

/-- An object that reads from a raw form is that form's region. -/
theorem formRead_raw_eq (cs : Codecs) (src tr : Bytes) (obj : Object) (type : CStr) (n : Nat)
    (hp : packParseHeader (trailerHeader tr) = some (type, n)) (hf : trailerFramed tr = some false)
    (h : formRead cs src tr = .ok obj) : obj = (type, src) ∧ src.length = n := by
  rw [formRead_raw cs src tr type n hp hf] at h
  split at h
  · next hlen => exact ⟨(Except.ok.inj h).symm, hlen⟩
  · cases h

theorem length_trailerHeader (tr : Bytes) (htr : tr.length = 64) : (trailerHeader tr).length = 56 := by
  unfold trailerHeader
  rw [length_slice _ _ _ (by rw [htr]; decide)]
  rfl

/-- Compressing a raw form keeps what it reads as, as far as the reader's caps go. -/
theorem formRead_recoded (cs : Codecs) (hr : cs.RoundTrips) (use : Int) (src tr payload : Bytes) (type : CStr)
    (n : Nat) (hp : packParseHeader (trailerHeader tr) = some (type, n)) (htr : tr.length = 64)
    (he : packEncode cs false use src = some payload) (hn : src.length = n) :
    formRead cs (UInt8.ofNat use.toNat :: payload) (CAS_PACK_TRAILER_MAGIC_V2 ++ trailerHeader tr) =
      if WithinCaps src payload then .ok (type, src) else .error .err := by
  obtain ⟨h1, h2, h3⟩ := packEncode_spec cs false use src payload he
  have hf : trailerFramed (CAS_PACK_TRAILER_MAGIC_V2 ++ trailerHeader tr) = some true := by
    unfold trailerFramed
    rw [trailerMagic_append _ _ (by decide)]
    decide
  unfold formRead emittedRead
  simp only [hf, trailerHeader_append _ _ (show CAS_PACK_TRAILER_MAGIC_V2.length = 8 by decide)
    (length_trailerHeader tr htr), hp, ← hn]
  rw [regionDecode_encoded cs hr use h1 src payload src.length h3 h2]
  split <;> rfl

/-- **What an entry of the new pack reads as**, from the copy it was made of. -/
theorem packEntry_read (cs : Codecs) (hr : cs.RoundTrips) (st : Store) (old : Option Pack) (policy : Policy)
    (codec : Int) (bin src tr : Bytes) (e : Emitted)
    (h : packEntry cs noFaults st old policy codec bin = .ok e)
    (hsrc : packSource noFaults st old bin = .ok (src, tr)) (hwf : WellFramed src tr) (framed : Bool)
    (hf : trailerFramed tr = some framed) :
    e.bin = bin ∧ e.Whole ∧
      formRead cs e.region e.trailer =
        match packEncode cs false (packUse policy codec framed src) src with
        | none => formRead cs src tr
        | some payload => if WithinCaps src payload then formRead cs src tr else .error .err := by
  obtain ⟨src', tr', type, n, hsrc', hp, hform⟩ := packEntry_ok cs noFaults st old policy codec bin e h
  rw [hsrc] at hsrc'
  obtain ⟨rfl, rfl⟩ := Prod.mk.inj (Except.ok.inj hsrc')
  have htr := packSource_trailer noFaults st old bin src tr hsrc
  have hframe := hwf type n framed hp hf
  simp only [trailerFramed_eq tr framed hf] at hform
  have hno : noFaults (.scratchObj (toHex bin)) = false := rfl
  rw [hno] at hform
  rcases hform with ⟨hn, rfl⟩ | ⟨payload, hn, rfl⟩
  · rw [hn]
    refine ⟨rfl, ⟨?_, ?_⟩, rfl⟩
    · intro type' n' hp'
      simp only [] at hp'
      rw [hp] at hp'
      exact (Prod.mk.inj (Option.some.inj hp')).2.symm
    · rintro hnil
      simp only [] at hnil
      subst hnil
      cases framed with
      | false => simpa using hframe.symm
      | true => exact absurd rfl hframe
  · rw [hn]
    have hraw := packUse_ne policy codec framed src (packEncode_spec cs false _ src payload hn).1
    subst hraw
    have hlen : src.length = n := by simpa using hframe
    have h56 := length_trailerHeader tr htr
    refine ⟨rfl, ⟨?_, by simp⟩, ?_⟩
    · intro type' n' hp'
      simp only [trailerHeader_append _ _ (show CAS_PACK_TRAILER_MAGIC_V2.length = 8 by decide) h56] at hp'
      rw [hp] at hp'
      exact (Prod.mk.inj (Option.some.inj hp')).2.symm
    · simp only []
      rw [formRead_recoded cs hr _ src tr payload type n hp htr hn hlen,
        formRead_raw cs src tr type n hp hf, if_pos hlen]

/-- The object is still there exactly when it was there to copy and, if it was raw, compresses within the
reader's caps. -/
theorem packEntry_read_iff (cs : Codecs) (hr : cs.RoundTrips) (st : Store) (old : Option Pack)
    (policy : Policy) (codec : Int) (bin src tr : Bytes) (e : Emitted)
    (h : packEntry cs noFaults st old policy codec bin = .ok e)
    (hsrc : packSource noFaults st old bin = .ok (src, tr)) (hwf : WellFramed src tr) (framed : Bool)
    (hf : trailerFramed tr = some framed) (obj : Object) :
    formRead cs e.region e.trailer = .ok obj ↔
      formRead cs src tr = .ok obj ∧
        (framed = false → ∀ payload,
          packEncode cs false (packUse policy codec false obj.2) obj.2 = some payload →
            WithinCaps obj.2 payload) := by
  obtain ⟨-, -, hread⟩ := packEntry_read cs hr st old policy codec bin src tr e h hsrc hwf framed hf
  obtain ⟨src', tr', type, n, hsrc', hp, -⟩ := packEntry_ok cs noFaults st old policy codec bin e h
  rw [hsrc] at hsrc'
  obtain ⟨rfl, rfl⟩ := Prod.mk.inj (Except.ok.inj hsrc')
  -- a raw copy that reads is its own plaintext
  have hraw : framed = false → formRead cs src tr = .ok obj → obj.2 = src := by
    rintro rfl hform
    rw [(formRead_raw_eq cs src tr obj type n hp hf hform).1]
  rw [hread]
  cases hpe : packEncode cs false (packUse policy codec framed src) src with
  | none =>
    refine ⟨fun hform => ⟨hform, ?_⟩, fun hform => hform.1⟩
    rintro rfl payload henc
    rw [hraw rfl hform, hpe] at henc
    cases henc
  | some payload =>
    have hfr := packUse_ne policy codec framed src (packEncode_spec cs false _ src payload hpe).1
    subst hfr
    constructor
    · intro hform
      simp only [] at hform
      split at hform
      · next hcaps =>
        refine ⟨hform, fun _ payload' henc => ?_⟩
        rw [hraw rfl hform, hpe] at henc
        obtain rfl := Option.some.inj henc
        rw [hraw rfl hform]
        exact hcaps
      · cases hform
    · rintro ⟨hform, hcaps⟩
      have hc := hcaps rfl payload (by rw [hraw rfl hform]; exact hpe)
      rw [hraw rfl hform] at hc
      simp only [if_pos hc]
      exact hform

end Smolvfs
