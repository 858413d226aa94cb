import Smolvfs.Store

/-!
# What a read depends on

On a machine without faults a loose read is a function of the file's octets
alone (`looseRead`), and `casOpenObject` is decided by the pack handle first and
that file second (`casOpenObject_of_packed`, `casOpenObject_of_unpacked`).  A
put that succeeds on a new address adds one file and changes nothing else
(`storeFile_spec`), so other reads are as they were (`casOpenObject_setLoose_ne`).
-/

namespace Smolvfs

open Octets Search

/-- The read of a loose file with these octets. -/
def looseRead (cs : Codecs) (data : Bytes) : Except Status Object :=
  if data.length < CAS_PACK_BLOCK ∨ data.length > 2 ^ 30 then .error .err else looseDecode cs false data

theorem looseMap_noFaults (st : Store) (hash : Bytes) :
    looseMap noFaults st hash =
      match st.loose.lookup hash with
      | none => .error .enotfound
      | some f =>
        if f.data.length < CAS_PACK_BLOCK ∨ f.data.length > 2 ^ 30 then .error .err else .ok f.data := by
  unfold looseMap
  cases st.loose.lookup hash <;> simp [noFaults]

theorem looseOpen_noFaults (cs : Codecs) (st : Store) (hash : Bytes) :
    looseOpen cs noFaults st hash =
      match st.loose.lookup hash with
      | none => .error .enotfound
      | some f => looseRead cs f.data := by
  unfold looseOpen looseRead
  rw [looseMap_noFaults]
  cases st.loose.lookup hash with
  | none => rfl
  | some f =>
    simp only []
    by_cases hsz : f.data.length < CAS_PACK_BLOCK ∨ f.data.length > 2 ^ 30
    · rw [if_pos hsz, if_pos hsz]
    · rw [if_neg hsz, if_neg hsz]
      rfl

theorem casPackLookup_of_not_exists (cs : Codecs) (noBuf : Bool) (p : Pack) (hash : Bytes)
    (hv : validHash hash = true) (h : casPackExists p hash = false) :
    casPackLookup cs noBuf p hash = .error .enotfound := by
  obtain ⟨bin, hb, -⟩ := casHexDecode_of_valid hash hv
  unfold casPackExists at h
  unfold casPackLookup
  rw [hb] at h ⊢
  simp only [Option.isSome_eq_false_iff, Option.isNone_iff_eq_none] at h
  simp only [h]

theorem casOpenObject_of_unpacked (cs : Codecs) (flt : Faults) (st : Store) (hash : Bytes)
    (hv : validHash hash = true) (h : st.packed hash = false) :
    casOpenObject cs flt st hash = looseOpen cs flt st hash := by
  unfold casOpenObject
  rw [if_neg (by simp [hv])]
  cases hp : st.pack with
  | none => rfl
  | some p =>
    have he : casPackExists p hash = false := by
      unfold Store.packed at h
      rw [hp] at h
      simpa using h
    simp only [casPackLookup_of_not_exists cs _ p hash hv he]

/-- A fresh file is read as what was written. -/
theorem casOpenObject_of_loose (cs : Codecs) (st : Store) (hash : Bytes) (f : LooseFile)
    (hv : validHash hash = true) (hp : st.packed hash = false) (hl : st.loose.lookup hash = some f) :
    casOpenObject cs noFaults st hash = looseRead cs f.data := by
  rw [casOpenObject_of_unpacked cs noFaults st hash hv hp, looseOpen_noFaults, hl]

/-- A loose file that reads back is checked against its address by its digest, or not at all. -/
theorem casFsckObject_of_loose (cs : Codecs) (st : Store) (hash : Bytes) (f : LooseFile) (type : CStr)
    (data : Bytes) (hv : validHash hash = true) (hl : st.loose.lookup hash = some f)
    (hr : looseRead cs f.data = .ok (type, data)) :
    casFsckObject cs noFaults st hash =
      if casTypeIsReencoded type then .reencoded else fsckDigest type data hash := by
  unfold looseRead at hr
  split at hr
  · cases hr
  · next hsz =>
    unfold looseDecode at hr
    cases hf : trailerFramed (objTrailer f.data) with
    | none => simp [hf] at hr
    | some framed =>
      cases hh : parseHeader (trailerHeader (objTrailer f.data)) with
      | none => simp [hf, hh] at hr
      | some th =>
        obtain ⟨ty, n⟩ := th
        simp only [hf, hh] at hr
        cases hd : casCodecRegionDecode cs false (objRegion f.data) framed n with
        | error e => simp [hd, Except.map] at hr
        | ok d =>
          rw [hd] at hr
          obtain ⟨rfl, rfl⟩ := Prod.mk.inj (Except.ok.inj hr)
          have hraw : casOpenLooseRaw noFaults st hash = .ok (objRegion f.data, objTrailer f.data) := by
            unfold casOpenLooseRaw
            rw [if_neg (by simp [hv]), looseMap_noFaults, hl]
            simp only [if_neg hsz, hf, reduceCtorEq, if_false]
          -- the check compares the magic itself where the reader asks which of the two it is
          have hm : (trailerMagic (objTrailer f.data) == CAS_PACK_TRAILER_MAGIC_V2) = framed :=
            trailerFramed_eq _ _ hf
          unfold casFsckObject
          rw [if_neg (by simp [hv]), hraw]
          simp only [hh, hm, noFaults, hd]

section
variable (st : Store) (hash other : Bytes) (f : LooseFile)

@[simp] theorem setLoose_lookup_self : (st.setLoose hash f).loose.lookup hash = some f := by
  simp [Store.setLoose]

theorem setLoose_lookup_ne (h : other ≠ hash) :
    (st.setLoose hash f).loose.lookup other = st.loose.lookup other := AList.lookup_insert_ne h

@[simp] theorem setLoose_pack : (st.setLoose hash f).pack = st.pack := rfl

@[simp] theorem setLoose_file : (st.setLoose hash f).file = st.file := rfl

@[simp] theorem setLoose_packed : (st.setLoose hash f).packed other = st.packed other := rfl

end

theorem casOpenObject_setLoose_ne (cs : Codecs) (flt : Faults) (st : Store) (hash other : Bytes)
    (f : LooseFile) (hne : other ≠ hash) :
    casOpenObject cs flt (st.setLoose hash f) other = casOpenObject cs flt st other := by
  unfold casOpenObject looseOpen looseMap
  simp only [setLoose_lookup_ne st hash other f hne, setLoose_pack]

theorem storeFile_spec (flt : Faults) (st st' : Store) (hash data : Bytes) (now : Int)
    (hnew : st.hasLoose hash = false) (h : storeFile flt st hash data now = .ok st') :
    st' = st.setLoose hash ⟨data, now⟩ := by
  unfold storeFile at h
  rw [hnew] at h
  split at h
  · cases h
  · split at h
    · cases h
    · split at h
      · cases h
      · split at h
        · cases h
        · exact (Except.ok.inj h).symm

/-! ## Listing -/

theorem mem_casForeach (flt : Faults) (st : Store) (hash : Bytes) : hash ∈ (casForeach flt st).1 ↔
    flt .openDepot = false ∧ st.hasLoose hash = true ∧ foreachLists flt hash = true := by
  unfold casForeach Store.hasLoose
  rw [AList.lookup_isSome, AList.mem_keys]
  cases flt .openDepot <;> simp

/-- A name the code itself gave a loose object is handed out. -/
theorem foreachLists_lower (hash : Bytes) (h : LowerHash hash) : foreachLists noFaults hash = true := by
  unfold foreachLists
  rw [h.valid]
  cases hash with
  | nil => exact absurd h.1 (by decide)
  | cons c cs => simpa [noFaults] using h.2 c (by simp)

end Smolvfs
