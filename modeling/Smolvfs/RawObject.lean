import Smolvfs.PackForm
import Smolvfs.PutRead
import Smolvfs.Copies

/-!
# Raw objects, loose and packed

`rawFile` is the file a put leaves and `rawEmitted` the entry a packer makes of
it.  The entry of an object whose header fits (`Packable`) reads back,
`casPackLookup_rawPack`; the file does when the object is within the loose
reader's limits as well (`Storable`), `looseRead_rawFile`.
-/

namespace Smolvfs

open Octets

/-- An object whose header fits and parses, in a file of a size a file can have. -/
structure Packable (obj : Object) : Prop where
  header : formatHeader obj.1 obj.2.length = some (headerText obj.1 obj.2.length ++ [0])
  noBlank : (32 : UInt8) ∉ obj.1.bytes
  size : obj.2.length ≤ 2 ^ 40

/-- One that the loose reader takes. -/
structure Storable (obj : Object) : Prop extends Packable obj where
  loose : obj.2.length + CAS_PACK_BLOCK ≤ 2 ^ 30

theorem Storable.fits {obj : Object} (h : Storable obj) : RawFits obj.1 obj.2 := ⟨h.noBlank, h.loose⟩

theorem packable_of_small (type : CStr) (data : Bytes) (hne : type.bytes ≠ []) (htl : type.bytes.length ≤ 10)
    (hsp : (32 : UInt8) ∉ type.bytes) (hlen : data.length ≤ 2 ^ 40) : Packable (type, data) where
  header := formatHeader_some type data.length 20 hne (by decide) (by omega) (by omega) (by omega)
  noBlank := hsp
  size := hlen

theorem storable_of_small (type : CStr) (data : Bytes) (hne : type.bytes ≠ []) (htl : type.bytes.length ≤ 10)
    (hsp : (32 : UInt8) ∉ type.bytes) (hlen : data.length + 64 ≤ 2 ^ 30) : Storable (type, data) :=
  ⟨packable_of_small type data hne htl hsp (by omega), hlen⟩

/-- The digest an object is addressed by. -/
def objBin (obj : Object) : Bytes := digest2 (headerText obj.1 obj.2.length ++ [0]) obj.2

theorem casHashObject_objBin (obj : Object) (hs : Packable obj) :
    casHashObject obj.1 obj.2 = .ok (toHex (objBin obj)) := by
  unfold casHashObject
  rw [hs.header]
  rfl

/-- The trailer of a raw object. -/
def rawTrailer (obj : Object) : Bytes :=
  mkTrailer CAS_PACK_TRAILER_MAGIC (headerText obj.1 obj.2.length ++ [0])

/-- The loose file of a raw object. -/
def rawFile (obj : Object) : Bytes := obj.2 ++ rawTrailer obj

/-- A raw object in a pack. -/
def rawEmitted (bin : Bytes) (obj : Object) : Emitted := ⟨bin, obj.2, rawTrailer obj, obj.2.length⟩

section
variable (obj : Object)

theorem looseRead_rawFile (hs : Storable obj) (cs : Codecs) : looseRead cs (rawFile obj) = .ok obj := by
  have h := looseRead_raw cs obj.1 obj.2 _ hs.header
  rw [if_pos hs.fits] at h
  exact h

theorem looseCopy_rawFile (hs : Storable obj) (cs : Codecs) (st : Store) (hash : Bytes) (now : Int)
    (hl : st.loose.lookup hash = some ⟨rawFile obj, now⟩) : looseCopy cs st hash = .ok obj := by
  unfold looseCopy
  rw [hl]
  exact looseRead_rawFile obj hs cs

variable (hs : Packable obj)

include hs

theorem length_rawTrailer : (rawTrailer obj).length = 64 := by
  have := (formatHeader_spec _ _ _ hs.header).2.2.2
  exact length_mkTrailer _ _ length_magic.1 (by omega)

theorem packParseHeader_rawTrailer :
    packParseHeader (trailerHeader (rawTrailer obj)) = some (obj.1, obj.2.length) := by
  have hle := (formatHeader_spec _ _ _ hs.header).2.2.2
  have hsz := hs.size
  unfold rawTrailer
  rw [trailerHeader_mkTrailer _ _ length_magic.1 (by omega)]
  unfold packParseHeader
  rw [parseHeaderWith_format none _ _ _ hs.header, if_neg hs.noBlank,
    headerDigits_printNat none _ (by simp) (by omega)]
  rfl

theorem emittedRead_rawEmitted (cs : Codecs) (bin : Bytes) : emittedRead cs false (rawEmitted bin obj) = .ok obj := by
  have hf : trailerFramed (rawTrailer obj) = some false := trailerFramed_mkTrailer false _
  unfold emittedRead rawEmitted
  simp only [hf, packParseHeader_rawTrailer obj hs]
  simp [Except.map]

theorem packedOk_rawEmitted (bin : Bytes) (hb : bin.length = 32) : PackedOk [rawEmitted bin obj] where
  bins := by simp [rawEmitted, hb]
  trailers := by simp [rawEmitted, length_rawTrailer obj hs]
  size := by
    have hsz := hs.size
    have ht := length_rawTrailer obj hs
    rw [length_packImage _ (by simp [rawEmitted, hb])]
    simp only [packBody, rawEmitted, Emitted.block, List.map_cons, List.map_nil, List.flatten_cons,
      List.flatten_nil, List.append_nil, List.length_append, List.length_cons, List.length_nil, ht]
    omega

theorem rawEmitted_whole (bin : Bytes) : (rawEmitted bin obj).Whole := by
  refine ⟨?_, fun h => by simpa [rawEmitted] using congrArg List.length h⟩
  intro type n h
  have hp := packParseHeader_rawTrailer obj hs
  have h' : packParseHeader (trailerHeader (rawTrailer obj)) = some (type, n) := h
  rw [hp] at h'
  exact (Prod.mk.inj (Option.some.inj h')).2.symm

/-- A pack of one raw object gives it back. -/
theorem casPackLookup_rawPack (cs : Codecs) (bin hash : Bytes) (hp : PackedOk [rawEmitted bin obj])
    (hh : casHexDecode hash = some bin) : casPackLookup cs false (packOf _ hp) hash = .ok obj := by
  rw [casPackLookup_image cs false _ hp (by simp [BinsSorted]) 0 (by simp) (rawEmitted_whole obj hs bin) hash
    (by simpa [rawEmitted] using hh)]
  exact emittedRead_rawEmitted obj hs cs bin

/-- A pack of one raw object, under its address. -/
def rawBundle : Pack := packOf _ (packedOk_rawEmitted obj hs (objBin obj) (length_digest2 _ _))

theorem casPackHashes_rawBundle : casPackHashes (rawBundle obj hs) = [toHex (objBin obj)] := by
  unfold rawBundle
  rw [casPackHashes_packOf]
  rfl

theorem casPackLookup_rawBundle (cs : Codecs) :
    casPackLookup cs false (rawBundle obj hs) (toHex (objBin obj)) = .ok obj :=
  casPackLookup_rawPack obj hs cs _ _ _ (casHexDecode_toHex _)

omit hs

theorem casPackExists_rawPack_other (bin hash : Bytes) (hp : PackedOk [rawEmitted bin obj])
    (hv : validHash hash = true) (hne : casHexDecode hash ≠ some bin) :
    casPackExists (packOf _ hp) hash = false := by
  obtain ⟨b, hb, hlen⟩ := casHexDecode_of_valid hash hv
  unfold casPackExists
  simp only [hb]
  rw [findEntry_image_none _ hp b hlen]
  · rfl
  · intro e he
    obtain rfl := List.mem_singleton.mp he
    rintro rfl
    exact hne hb

end

/-! ## A depot with one address -/

section
variable (bin : Bytes) (hb : bin.length = 32) (packed loose : Object) (hp : Packable packed)

/-- An address with one object in the pack and another one loose. -/
def oneAddress : Store where
  loose := (Store.empty.setLoose (toHex bin) ⟨rawFile loose, 0⟩).loose
  file p := if p = packDat then some (packImage [rawEmitted bin packed]) else none
  pack := some (packOf _ (packedOk_rawEmitted packed hp bin hb))

theorem oneAddress_open : casPackOpen false ((oneAddress bin hb packed loose hp).file packDat) =
    some (packOf _ (packedOk_rawEmitted packed hp bin hb)) :=
  casPackOpen_image _ (packedOk_rawEmitted packed hp bin hb)

theorem packCopy_oneAddress (cs : Codecs) (hash : Bytes) (hh : casHexDecode hash = some bin) :
    packCopy cs (oneAddress bin hb packed loose hp) hash = .ok packed :=
  casPackLookup_rawPack packed hp cs bin hash _ hh

theorem packed_oneAddress (hash : Bytes) (hv : validHash hash = true)
    (h : (oneAddress bin hb packed loose hp).packed hash = true) : casHexDecode hash = some bin := by
  by_contra hne
  have hno : (oneAddress bin hb packed loose hp).packed hash = false :=
    casPackExists_rawPack_other packed bin hash _ hv hne
  rw [hno] at h
  cases h

theorem looseCopy_oneAddress (cs : Codecs) (hl : Storable loose) :
    looseCopy cs (oneAddress bin hb packed loose hp) (toHex bin) = .ok loose :=
  looseCopy_rawFile loose hl cs _ _ 0 (setLoose_lookup_self Store.empty _ _)

theorem hasLoose_oneAddress (hash : Bytes) (h : (oneAddress bin hb packed loose hp).hasLoose hash = true) :
    hash = toHex bin := by
  by_contra hne
  have hno : (oneAddress bin hb packed loose hp).loose.lookup hash = none :=
    setLoose_lookup_ne Store.empty _ hash _ hne
  unfold Store.hasLoose at h
  rw [hno] at h
  cases h

end

end Smolvfs
