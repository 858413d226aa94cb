import Smolvfs.TreeStore

/-!
# What a put leaves

`Grows`: what a depot reads it goes on reading.  A put that succeeds, of an object, of
an object at an address or of a directory in either form, does nothing where there is
something, and otherwise adds one file at the object's address (`PutAt`), so a depot
grows under it (`PutAt.grows`) and no other address is less fresh.
-/

namespace Smolvfs

open Octets

/-! ## What a depot has stays -/

section
variable {cs : Codecs}

/-- What can be read stays as it is. -/
def Grows (cs : Codecs) (st st' : Store) : Prop :=
  ∀ hash obj, casOpenObject cs noFaults st hash = .ok obj → casOpenObject cs noFaults st' hash = .ok obj

theorem Grows.refl (st : Store) : Grows cs st st := fun _ _ h => h

theorem Grows.trans {st st' st'' : Store} (h : Grows cs st st') (h' : Grows cs st' st'') : Grows cs st st'' :=
  fun hash obj hopen => h' hash obj (h hash obj hopen)

theorem grows_setLoose (st : Store) (hash : Bytes) (f : LooseFile) (hv : validHash hash = true) (hf : Fresh st hash) :
    Grows cs st (st.setLoose hash f) := by
  intro other obj hopen
  have hne : other ≠ hash := by
    rintro rfl
    have hpack := (packCopy_enotfound_iff cs st other hv).mpr hf.2
    rw [casOpenObject_of_looseCopy cs st other hv hpack] at hopen
    have hloose : looseCopy cs st other = .error .enotfound := by
      unfold looseCopy
      rw [show st.loose.lookup other = none by simpa [Store.hasLoose] using hf.1]
    rw [hloose] at hopen
    cases hopen
  rw [casOpenObject_setLoose_ne cs noFaults st hash other f hne]
  exact hopen

theorem Grows.load {st st' : Store} (h : Grows cs st st') {hash : Bytes} {dir : Dir}
    (hload : casTreeLoad cs noFaults st hash = .ok dir) : casTreeLoad cs noFaults st' hash = .ok dir := by
  unfold casTreeLoad at hload ⊢
  split at hload
  · cases hload
  · next obj hopen =>
    rw [h hash _ hopen]
    exact hload

end

/-! ## A put -/

/-- What a put at an address comes to: nothing where there is something, and otherwise one file more, which reads as
the object within the reader's limits. -/
structure PutAt (cs : Codecs) (st st' : Store) (hash : Bytes) (obj : Object) : Prop where
  valid : validHash hash = true
  cases : (¬ Fresh st hash ∧ st' = st) ∨
    (Fresh st hash ∧ ∃ f, st' = st.setLoose hash f ∧ (RawFits obj.1 obj.2 → looseRead cs f.data = .ok obj))

theorem casPutObjectAt_putAt (cs : Codecs) {flt : Faults} {st st' : Store} {type : CStr} {data hash : Bytes} {now : Int}
    (h : casPutObjectAt flt st type data hash now = .ok st') : PutAt cs st st' hash (type, data) := by
  by_cases hf : Fresh st hash
  · obtain ⟨hv, hdr, hform, rfl⟩ := casPutObjectAt_fresh flt st st' type data hash now h hf
    exact ⟨hv, Or.inr ⟨hf, _, rfl, (readsIff_raw cs type data hdr hform).1⟩⟩
  · unfold casPutObjectAt at h
    split at h
    · cases h
    · next hv =>
      split at h
      · cases h
      · split at h
        · cases h
        · rw [if_pos ((not_fresh_iff st hash).mp hf)] at h
          obtain rfl := Except.ok.inj h
          exact ⟨by simpa using hv, Or.inl ⟨hf, rfl⟩⟩

/-- The address of an object that has one. -/
theorem casHashObject_ok {type : CStr} {data hash : Bytes} (h : casHashObject type data = .ok hash) :
    hash = toHex (objBin (type, data)) := by
  obtain ⟨hdr, hform, rfl⟩ := casHashObject_spec type data hash h
  obtain ⟨rfl, -⟩ := formatHeader_spec type data.length hdr hform
  rfl

theorem casPutObject_putAt (cs : Codecs) {flt : Faults} {st st' : Store} {type : CStr} {data hash : Bytes} {now : Int}
    (h : casPutObject flt st type data now = .ok (st', hash)) :
    hash = toHex (objBin (type, data)) ∧ PutAt cs st st' hash (type, data) := by
  have hv : validHash (toHex (objBin (type, data))) = true := (lowerHash_toHex _ (length_digest2 _ _)).valid
  by_cases hf : Fresh st hash
  · obtain ⟨hdr, hform, hhash, rfl⟩ := casPutObject_fresh flt st st' type data hash now h hf
    obtain ⟨hdr_eq, -⟩ := formatHeader_spec type data.length hdr hform
    have haddr : hash = toHex (objBin (type, data)) := by rw [hhash, hdr_eq]; rfl
    exact ⟨haddr, haddr ▸ hv, Or.inr ⟨hf, _, rfl, (readsIff_raw cs type data hdr hform).1⟩⟩
  · unfold casPutObject at h
    split at h
    · cases h
    · next hdr hform =>
      obtain ⟨rfl, -⟩ := formatHeader_spec type data.length hdr hform
      split at h
      · cases h
      · dsimp only at h
        split at h
        · obtain ⟨rfl, rfl⟩ := Prod.mk.inj (Except.ok.inj h)
          exact ⟨rfl, hv, Or.inl ⟨hf, rfl⟩⟩
        · next hno =>
          cases hs : storeFile flt st (toHex (digest2 (headerText type data.length ++ [0]) data))
              (data ++ mkTrailer CAS_PACK_TRAILER_MAGIC (headerText type data.length ++ [0])) now with
          | error rc =>
            rw [hs] at h
            cases h
          | ok st1 =>
            rw [hs] at h
            obtain ⟨-, rfl⟩ := Prod.mk.inj (Except.ok.inj h)
            exact absurd ((not_fresh_iff st _).mp hf) hno

/-- Without a codec an object is stored as it is. -/
theorem casPutObjectZ_putAt {cs : Codecs} {cfg : CompressConfig} {flt : Faults} {st st' : Store} {type : CStr}
    {data hash : Bytes} {now : Int} (h : casPutObjectZ cs cfg flt st type CAS_CODEC_NONE data now = .ok (st', hash)) :
    hash = toHex (objBin (type, data)) ∧ PutAt cs st st' hash (type, data) := by
  unfold casPutObjectZ at h
  split at h
  · cases h
  · next addr hh =>
    have haddr := casHashObject_ok hh
    have hv : validHash addr = true := haddr ▸ (lowerHash_toHex _ (length_digest2 _ _)).valid
    split at h
    · next hex =>
      obtain ⟨rfl, rfl⟩ := Prod.mk.inj (Except.ok.inj h)
      refine ⟨haddr, hv, Or.inl ⟨fun hf => ?_, rfl⟩⟩
      rw [(fresh_iff st addr hv).mp hf] at hex
      cases hex
    · have hwins : compressWins cs cfg (flt (.scratchObj addr)) CAS_CODEC_NONE data = none := by
        unfold compressWins
        rw [if_neg (by simp)]
      rw [hwins] at h
      dsimp only at h
      cases hput : casPutObjectAt flt st type data addr now with
      | error rc =>
        rw [hput] at h
        cases h
      | ok st1 =>
        rw [hput] at h
        obtain ⟨rfl, rfl⟩ := Prod.mk.inj (Except.ok.inj h)
        exact ⟨haddr, casPutObjectAt_putAt cs hput⟩

/-- What is put at the end of a directory: its entries are sorted and can be loaded. -/
theorem casTreeStore_putAt (cs : Codecs) {flt : Faults} {st st' : Store} {useHtree : Bool} {dir : Dir} {hash : Bytes}
    {now : Int} (h : casTreeStore flt st useHtree dir now = .ok (st', hash)) :
    hash = toHex (objBin (tTree, treeSerialize (sortEntries dir))) ∧ NamesAscending (sortEntries dir) ∧
      PutAt cs st st' hash (treeForm useHtree (sortEntries dir)) := by
  unfold casTreeStore at h
  dsimp only at h
  split at h
  · cases h
  · next hrep =>
    have hs : NamesAscending (sortEntries dir) :=
      (repeatsName_eq_false_iff _ (sortEntries_sorted dir)).mp (by simpa using hrep)
    split at h
    · cases h
    · cases useHtree with
      | false =>
        rw [if_neg (by simp)] at h
        obtain ⟨haddr, hput⟩ := casPutObject_putAt cs h
        exact ⟨haddr, hs, hput⟩
      | true =>
        rw [if_pos rfl] at h
        split at h
        · cases h
        · next addr hh =>
          have haddr := casHashObject_ok hh
          have hv : validHash addr = true := haddr ▸ (lowerHash_toHex _ (length_digest2 _ _)).valid
          split at h
          · next hex =>
            obtain ⟨rfl, rfl⟩ := Prod.mk.inj (Except.ok.inj h)
            refine ⟨haddr, hs, hv, Or.inl ⟨fun hf => ?_, rfl⟩⟩
            rw [(fresh_iff st addr hv).mp hf] at hex
            cases hex
          · split at h
            · cases h
            · cases hput : casPutObjectAt flt st tHtree (htreeBuild (sortEntries dir)) addr now with
              | error rc =>
                rw [hput] at h
                cases h
              | ok st1 =>
                rw [hput] at h
                obtain ⟨rfl, rfl⟩ := Prod.mk.inj (Except.ok.inj h)
                exact ⟨haddr, hs, casPutObjectAt_putAt cs hput⟩

section
variable {cs : Codecs} {st st' : Store} {hash : Bytes} {obj : Object} (h : PutAt cs st st' hash obj)

include h

theorem PutAt.grows : Grows cs st st' := by
  rcases h.cases with ⟨-, rfl⟩ | ⟨hf, f, rfl, -⟩
  · exact Grows.refl _
  · exact grows_setLoose st hash f h.valid hf

theorem PutAt.opens (hf : Fresh st hash) (hfits : RawFits obj.1 obj.2) :
    casOpenObject cs noFaults st' hash = .ok obj := by
  rcases h.cases with ⟨hno, -⟩ | ⟨-, f, rfl, hread⟩
  · exact absurd hf hno
  · rw [casOpenObject_of_loose cs (st.setLoose hash f) hash f h.valid hf.2 (setLoose_lookup_self st hash f),
      hread hfits]

/-- No address but this is less fresh than before. -/
theorem PutAt.fresh {other : Bytes} (hne : other ≠ hash) : Fresh st' other ↔ Fresh st other := by
  rcases h.cases with ⟨-, rfl⟩ | ⟨-, f, rfl, -⟩
  · exact Iff.rfl
  · unfold Fresh Store.hasLoose
    rw [setLoose_lookup_ne st hash other f hne, setLoose_packed]

end

end Smolvfs
