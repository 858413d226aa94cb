import Smolvfs.Reading

/-!
# The two copies of an object

A depot may hold an address twice, in the pack and as a loose file.  `packCopy`
and `looseCopy` are the reads of the two; `casOpenObject_copies`: a read takes the
pack's copy, and the loose one when the pack has none.
-/

namespace Smolvfs

open Octets

section
variable (cs : Codecs) (st : Store) (hash : Bytes)

/-- The read of the pack's copy. -/
def packCopy : Except Status Object :=
  match st.pack with
  | none => .error .enotfound
  | some p => casPackLookup cs false p hash

/-- The read of the loose copy. -/
def looseCopy : Except Status Object :=
  match st.loose.lookup hash with
  | none => .error .enotfound
  | some f => looseRead cs f.data

theorem looseDecode_ne_enotfound (data : Bytes) : looseDecode cs false data ≠ .error .enotfound := by
  unfold looseDecode
  split
  · simp
  · split
    · simp
    · exact regionDecode_map_ne_enotfound cs false _ _ _ _

theorem looseRead_ne_enotfound (data : Bytes) : looseRead cs data ≠ .error .enotfound := by
  unfold looseRead
  split
  · simp
  · exact looseDecode_ne_enotfound cs data

/-- There is no loose copy exactly when there is no file. -/
theorem looseCopy_enotfound_iff : looseCopy cs st hash = .error .enotfound ↔ st.hasLoose hash = false := by
  unfold looseCopy Store.hasLoose
  cases st.loose.lookup hash with
  | none => simp
  | some f => simpa using looseRead_ne_enotfound cs f.data

theorem casPackLookup_of_exists (p : Pack) (h : casPackExists p hash = true) :
    casPackLookup cs false p hash ≠ .error .enotfound := by
  unfold casPackExists at h
  unfold casPackLookup
  cases hb : casHexDecode hash with
  | none => simp
  | some bin =>
    simp only [hb] at h
    obtain ⟨e, he⟩ := Option.isSome_iff_exists.mp h
    simp only [he]
    split
    · simp
    · split
      · simp
      · split
        · simp
        · next type n _ =>
          generalize (if p.entryStored e ≠ 0 then p.entryStored e else n) = regionSize
          split
          · simp
          · exact regionDecode_map_ne_enotfound cs false _ _ _ _

/-- A lookup that had its buffer finds what one on a machine without faults does. -/
theorem casPackLookup_noBuf (noBuf : Bool) (p : Pack) (obj : Object)
    (h : casPackLookup cs noBuf p hash = .ok obj) : casPackLookup cs false p hash = .ok obj := by
  unfold casPackLookup at h ⊢
  cases hb : casHexDecode hash with
  | none => simp [hb] at h
  | some bin =>
    simp only [hb] at h ⊢
    cases hf : findEntry p bin with
    | none => simp [hf] at h
    | some e =>
      simp only [hf] at h ⊢
      by_cases hoff : (p.entryOffset e + CAS_PACK_BLOCK) % 2 ^ 64 > p.map.length
      · rw [if_pos hoff] at h
        cases h
      · rw [if_neg hoff] at h ⊢
        cases ht : trailerFramed (p.read (p.entryOffset e) CAS_PACK_BLOCK) with
        | none => simp [ht] at h
        | some framed =>
          cases hp : packParseHeader (trailerHeader (p.read (p.entryOffset e) CAS_PACK_BLOCK)) with
          | none => simp [ht, hp] at h
          | some th =>
            obtain ⟨type, n⟩ := th
            simp only [ht, hp] at h ⊢
            generalize (if p.entryStored e ≠ 0 then p.entryStored e else n) = regionSize at h ⊢
            split at h
            · cases h
            · next hr =>
              rw [if_neg hr]
              cases hd : casCodecRegionDecode cs noBuf (p.read (p.entryOffset e - regionSize) regionSize) framed n with
              | error rc => simp [hd, Except.map] at h
              | ok data =>
                rw [hd] at h
                rw [regionDecode_noBuf cs noBuf _ _ _ _ hd]
                exact h

/-- There is no packed copy exactly when the pack does not have the hash. -/
theorem packCopy_enotfound_iff (hv : validHash hash = true) :
    packCopy cs st hash = .error .enotfound ↔ st.packed hash = false := by
  unfold packCopy Store.packed
  cases st.pack with
  | none => simp
  | some p =>
    rw [Option.any_some]
    constructor
    · intro h
      by_contra hex
      exact casPackLookup_of_exists cs hash p (by simpa using hex) h
    · exact casPackLookup_of_not_exists cs false p hash hv

/-- **A read takes the pack's copy**, and the loose one when the pack has none. -/
theorem casOpenObject_copies (hv : validHash hash = true) :
    casOpenObject cs noFaults st hash =
      match packCopy cs st hash with
      | .error .enotfound => looseCopy cs st hash
      | r => r := by
  have hloose := looseOpen_noFaults cs st hash
  unfold casOpenObject packCopy
  rw [if_neg (by simp [hv])]
  cases st.pack with
  | none => exact hloose
  | some p =>
    simp only [hloose]
    rfl

theorem casOpenObject_of_packCopy (hv : validHash hash = true) (obj : Object)
    (h : packCopy cs st hash = .ok obj) : casOpenObject cs noFaults st hash = .ok obj := by
  rw [casOpenObject_copies cs st hash hv, h]

theorem casOpenObject_of_looseCopy (hv : validHash hash = true)
    (h : packCopy cs st hash = .error .enotfound) : casOpenObject cs noFaults st hash = looseCopy cs st hash := by
  rw [casOpenObject_copies cs st hash hv, h]

/-- A hash the depot does not have is not read. -/
theorem casOpenObject_absent (hl : st.hasLoose hash = false) (hp : st.packed hash = false) (obj : Object) :
    casOpenObject cs noFaults st hash ≠ .ok obj := by
  by_cases hv : validHash hash = true
  · rw [casOpenObject_of_looseCopy cs st hash hv ((packCopy_enotfound_iff cs st hash hv).mpr hp),
      (looseCopy_enotfound_iff cs st hash).mpr hl]
    simp
  · unfold casOpenObject
    rw [if_pos (by simpa using hv)]
    simp

/-- A read depends on the pack handle and on the file under the hash. -/
theorem casOpenObject_congr (flt : Faults) (st' : Store) (hp : st'.pack = st.pack)
    (hl : st'.loose.lookup hash = st.loose.lookup hash) :
    casOpenObject cs flt st' hash = casOpenObject cs flt st hash := by
  unfold casOpenObject looseOpen looseMap
  rw [hp, hl]

/-- A packed hash is read the same by every store with the same pack. -/
theorem casOpenObject_of_same_pack (hv : validHash hash = true) (st' : Store) (hpack : st'.pack = st.pack)
    (hp : st.packed hash = true) : casOpenObject cs noFaults st' hash = casOpenObject cs noFaults st hash := by
  have hcopy : packCopy cs st' hash = packCopy cs st hash := by
    unfold packCopy
    rw [hpack]
  have hfound : packCopy cs st hash ≠ .error .enotfound := by
    intro h
    rw [(packCopy_enotfound_iff cs st hash hv).mp h] at hp
    cases hp
  rw [casOpenObject_copies cs st' hash hv, casOpenObject_copies cs st hash hv, hcopy]
  cases hc : packCopy cs st hash with
  | ok obj => rfl
  | error rc => cases rc <;> first | rfl | exact absurd hc hfound

/-- The check takes the loose copy. -/
theorem casFsckObject_of_looseCopy (hv : validHash hash = true) (type : CStr) (data : Bytes)
    (h : looseCopy cs st hash = .ok (type, data)) :
    casFsckObject cs noFaults st hash =
      if casTypeIsReencoded type then .reencoded else fsckDigest type data hash := by
  unfold looseCopy at h
  cases hl : st.loose.lookup hash with
  | none => simp [hl] at h
  | some f =>
    rw [hl] at h
    exact casFsckObject_of_loose cs st hash f type data hv hl h

/-- The check takes the pack's copy when there is no loose one. -/
theorem casFsckObject_of_packCopy (hv : validHash hash = true) (type : CStr) (data : Bytes)
    (hl : looseCopy cs st hash = .error .enotfound) (h : packCopy cs st hash = .ok (type, data)) :
    casFsckObject cs noFaults st hash =
      if casTypeIsReencoded type then .reencoded else fsckDigest type data hash := by
  have hnone : st.loose.lookup hash = none := by
    have := (looseCopy_enotfound_iff cs st hash).mp hl
    unfold Store.hasLoose at this
    simpa using this
  have hraw : casOpenLooseRaw noFaults st hash = .error .enotfound := by
    unfold casOpenLooseRaw
    rw [if_neg (by simp [hv]), looseMap_noFaults, hnone]
  unfold packCopy at h
  cases hp : st.pack with
  | none => simp [hp] at h
  | some p =>
    rw [hp] at h
    unfold casFsckObject
    rw [if_neg (by simp [hv]), hraw, hp]
    show fsckPackedObject cs noFaults p hash = _
    unfold fsckPackedObject
    rw [show noFaults (.bufObj hash) = false from rfl, show casPackLookup cs false p hash = _ from h]

end

section
variable (cs : Codecs) (st : Store) (hash other : Bytes) (f : LooseFile)

@[simp] theorem packCopy_setLoose : packCopy cs (st.setLoose hash f) other = packCopy cs st other := rfl

@[simp] theorem looseCopy_setLoose_self : looseCopy cs (st.setLoose hash f) hash = looseRead cs f.data := by
  unfold looseCopy
  rw [setLoose_lookup_self]

end

end Smolvfs
