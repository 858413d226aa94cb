import Smolvfs.Fsck
import Smolvfs.GcKeep
import Smolvfs.Import
import Smolvfs.Lib.WriteOnce
import Smolvfs.Puts

/-!
# What a depot holds

What a depot is for is a write-once map from addresses to objects.  `Holds`: every copy of
an object, in a loose file, in the pack that the handle has open and in the one that is on
disk, reads as the map says, and what the map has is there, for the handle and for one
that is opened anew.

A put adds an entry unless there is one, an import adds those of its bundle, and creating a
pack, opening it and reclaiming loose copies leave the map as it is.
-/

namespace Smolvfs

open Octets Loop WriteOnce

/-- What is at each address. -/
abbrev Holdings := Bytes → Option Object

/-- The copies that a handle can get at are those of objects held. -/
structure CopiesOf (cs : Codecs) (st : Store) (m : Holdings) : Prop where
  loose : ∀ hash f, st.loose.lookup hash = some f →
    LowerHash hash ∧ ∃ obj, m hash = some obj ∧ looseRead cs f.data = .ok obj
  packed : ∀ hash, LowerHash hash → st.packed hash = true → ∃ obj, m hash = some obj ∧ packCopy cs st hash = .ok obj
  listed : ∀ p, st.pack = some p → ∀ hash ∈ casPackHashes p, st.packed hash = true

/-- And there is one of each. -/
structure HoldsIn (cs : Codecs) (st : Store) (m : Holdings) : Prop extends CopiesOf cs st m where
  there : ∀ hash obj, m hash = some obj → LowerHash hash ∧ ¬ Fresh st hash

/-- The same of the handle and of what is on disk. -/
structure Holds (cs : Codecs) (st : Store) (m : Holdings) : Prop where
  handle : HoldsIn cs st m
  disk : HoldsIn cs (casReloadPack noFaults st) m

/-! ## Reading -/

section
variable {cs : Codecs} {st : Store} {m : Holdings} (h : HoldsIn cs st m) {hash : Bytes} (hlow : LowerHash hash)
include h hlow

/-- What is there is held, and reads as it is held. -/
theorem HoldsIn.held (hf : ¬ Fresh st hash) :
    ∃ obj, m hash = some obj ∧ casOpenObject cs noFaults st hash = .ok obj := by
  cases hp : st.packed hash with
  | true =>
    obtain ⟨obj, hm, hcopy⟩ := h.packed hash hlow hp
    exact ⟨obj, hm, casOpenObject_of_packCopy cs st hash hlow.valid obj hcopy⟩
  | false =>
    cases hl : st.loose.lookup hash with
    | none =>
      refine absurd ⟨?_, hp⟩ hf
      unfold Store.hasLoose
      rw [hl]
      rfl
    | some f =>
      obtain ⟨-, obj, hm, hread⟩ := h.loose hash f hl
      exact ⟨obj, hm, (casOpenObject_of_loose cs st hash f hlow.valid hp hl).trans hread⟩

theorem HoldsIn.fresh_iff : Fresh st hash ↔ m hash = none := by
  constructor
  · intro hf
    cases hm : m hash with
    | none => rfl
    | some obj => exact absurd hf (h.there hash obj hm).2
  · intro hm
    by_contra hf
    obtain ⟨obj, hobj, -⟩ := h.held hlow hf
    rw [hm] at hobj
    cases hobj

/-- **A read gives what is held.** -/
theorem HoldsIn.opens (obj : Object) : casOpenObject cs noFaults st hash = .ok obj ↔ m hash = some obj := by
  constructor
  · intro hopen
    have hf : ¬ Fresh st hash := fun hf => casOpenObject_absent cs st hash hf.1 hf.2 obj hopen
    obtain ⟨held, hm, hread⟩ := h.held hlow hf
    rw [hm, Except.ok.inj (hread.symm.trans hopen)]
  · intro hm
    obtain ⟨held, hobj, hread⟩ := h.held hlow (h.there hash obj hm).2
    rw [hm] at hobj
    rw [hread, Option.some.inj hobj]

theorem HoldsIn.exists : casExists st hash = (m hash).isSome := by
  cases hm : m hash with
  | none => exact (Smolvfs.fresh_iff st hash hlow.valid).mp ((h.fresh_iff hlow).mpr hm)
  | some obj => exact casExists_of_not_fresh st hash hlow.valid (h.there hash obj hm).2

end

/-- A loose file is the object's. -/
theorem CopiesOf.looseIs {cs : Codecs} {st : Store} {m : Holdings} (h : CopiesOf cs st m) {hash : Bytes} {f : LooseFile}
    {obj : Object} (hl : st.loose.lookup hash = some f) (hm : m hash = some obj) : looseRead cs f.data = .ok obj := by
  obtain ⟨-, held, hheld, hread⟩ := h.loose hash f hl
  rw [hread, Option.some.inj (hheld.symm.trans hm)]

/-- Only the files and the pack that is open count. -/
theorem HoldsIn.congr {cs : Codecs} {st st' : Store} {m : Holdings} (h : HoldsIn cs st m) (hp : st'.pack = st.pack)
    (hl : st'.loose = st.loose) : HoldsIn cs st' m := by
  have hpacked : st'.packed = st.packed := by
    unfold Store.packed
    rw [hp]
  have hcopy : packCopy cs st' = packCopy cs st := by
    unfold packCopy
    rw [hp]
  refine ⟨⟨fun hash f hf => h.loose hash f (hl ▸ hf), ?_, fun p hpk => ?_⟩, fun hash obj hm => ?_⟩
  · rw [hpacked, hcopy]
    exact h.packed
  · rw [hpacked]
    exact h.listed p (hp ▸ hpk)
  · obtain ⟨hlow, hf⟩ := h.there hash obj hm
    refine ⟨hlow, fun hf' => hf ?_⟩
    unfold Fresh Store.hasLoose at hf' ⊢
    rwa [hl, hpacked] at hf'

theorem casReloadPack_opens (st : Store) {flt : Faults} (h : flt .openPack = false) :
    casReloadPack flt st = casReloadPack noFaults st := by
  unfold casReloadPack
  rw [h]
  rfl

/-- A handle that is as the disk is. -/
theorem HoldsIn.synced {cs : Codecs} {st : Store} {m : Holdings} (h : HoldsIn cs st m)
    (hs : casReloadPack noFaults st = st) : Holds cs st m := ⟨h, hs.symm ▸ h⟩

/-- A depot is opened. -/
theorem Holds.reload {cs : Codecs} {st : Store} {m : Holdings} (h : Holds cs st m) :
    Holds cs (casReloadPack noFaults st) m := ⟨h.disk, h.disk⟩

theorem holds_empty (cs : Codecs) : Holds cs Store.empty fun _ => none := by
  refine HoldsIn.synced ⟨⟨fun hash f hl => ?_, fun hash _ hp => ?_, fun p hp => ?_⟩, fun hash obj hm => ?_⟩ rfl
  · cases hl
  · cases hp
  · cases hp
  · cases hm

/-! ## Putting -/

section
variable {cs : Codecs} {st st' : Store} {m : Holdings} {hash : Bytes} {obj : Object}

/-- A file more, at an address that holds nothing. -/
theorem HoldsIn.setLoose (h : HoldsIn cs st m) {f : LooseFile} (hlow : LowerHash hash) (hm : m hash = none)
    (hread : looseRead cs f.data = .ok obj) : HoldsIn cs (st.setLoose hash f) (put m hash obj) := by
  have hput := put_free m hash obj hm
  refine ⟨⟨fun other g hl => ?_, fun other hlow' hp => ?_, fun p hp other hmem => ?_⟩, fun other held hheld => ?_⟩
  · by_cases hne : other = hash
    · subst hne
      rw [setLoose_lookup_self] at hl
      obtain rfl := Option.some.inj hl
      exact ⟨hlow, obj, by rw [hput, Function.update_self], hread⟩
    · rw [setLoose_lookup_ne st hash other f hne] at hl
      rw [hput, Function.update_of_ne hne]
      exact h.loose other g hl
  · rw [setLoose_packed] at hp
    obtain ⟨held, hheld, hcopy⟩ := h.packed other hlow' hp
    refine ⟨held, kept_put m hash obj other held hheld, ?_⟩
    unfold packCopy at hcopy ⊢
    exact hcopy
  · rw [setLoose_packed]
    exact h.listed p hp other hmem
  · by_cases hne : other = hash
    · subst hne
      refine ⟨hlow, fun hf => ?_⟩
      unfold Fresh Store.hasLoose at hf
      rw [setLoose_lookup_self] at hf
      cases hf.1
    · rw [hput, Function.update_of_ne hne] at hheld
      obtain ⟨hlow', hf⟩ := h.there other held hheld
      refine ⟨hlow', fun hf' => hf ?_⟩
      unfold Fresh Store.hasLoose at hf' ⊢
      rwa [setLoose_lookup_ne st hash other f hne, setLoose_packed] at hf'

theorem Holds.setLoose (h : Holds cs st m) {f : LooseFile} (hlow : LowerHash hash) (hm : m hash = none)
    (hread : looseRead cs f.data = .ok obj) : Holds cs (st.setLoose hash f) (put m hash obj) :=
  ⟨h.handle.setLoose hlow hm hread, h.disk.setLoose hlow hm hread⟩

end

section
variable (cs : Codecs) {flt : Faults} {st st' : Store} {w : Writer} {type : CStr} {data hash : Bytes} {now : Int}

/-- `cas_put_object_z` answers the object's address, and does nothing where there is something. -/
theorem casPutObjectZ_there {cfg : CompressConfig} {codec : Int}
    (h : casPutObjectZ cs cfg flt st type codec data now = .ok (st', hash)) :
    casHashObject type data = .ok hash ∧ (¬ Fresh st hash → st' = st) := by
  cases ha : casHashObject type data with
  | error rc =>
    unfold casPutObjectZ at h
    rw [ha] at h
    cases h
  | ok addr =>
    obtain ⟨hdr, hh, haddr⟩ := casHashObject_spec type data addr ha
    have hv : validHash addr = true := haddr ▸ validHash_digest2 hdr data
    obtain ⟨f, hf⟩ := casPutObjectZ_runs flt st type data addr hdr now cs cfg codec hv hh ha
    rw [hf] at h
    split at h
    · next hfresh =>
      split at h
      · cases h
      · obtain ⟨-, rfl⟩ := Prod.mk.inj (Except.ok.inj h)
        exact ⟨rfl, fun hn => absurd hfresh hn⟩
    · obtain ⟨rfl, rfl⟩ := Prod.mk.inj (Except.ok.inj h)
      exact ⟨rfl, fun _ => rfl⟩

theorem PutAt.there {obj : Object} (h : PutAt cs st st' hash obj) (hn : ¬ Fresh st hash) : st' = st := by
  rcases h.cases with ⟨-, hst⟩ | ⟨hf, -⟩
  · exact hst
  · exact absurd hf hn

/-- A put where there is something does nothing. -/
theorem writer_there (h : w.run cs flt st type data now = .ok (st', hash)) (hn : ¬ Fresh st hash) : st' = st := by
  cases w with
  | put => exact (casPutObject_putAt cs h).2.there cs hn
  | putAt addr =>
    simp only [Writer.run] at h
    cases hp : casPutObjectAt flt st type data addr now with
    | error rc => simp [hp, Except.map] at h
    | ok s =>
      rw [hp] at h
      obtain ⟨rfl, rfl⟩ := Prod.mk.inj (Except.ok.inj h)
      exact (casPutObjectAt_putAt cs hp).there cs hn
  | putZ cfg codec => exact (casPutObjectZ_there cs h).2 hn

/-- A writer that computes the address answers the object's. -/
theorem writer_address (h : w.run cs flt st type data now = .ok (st', hash)) (hc : w.computes = true) :
    hash = toHex (objBin (type, data)) := by
  cases w with
  | put => exact (casPutObject_putAt cs h).1
  | putAt addr => cases hc
  | putZ cfg codec => exact casHashObject_ok (casPutObjectZ_there cs h).1

variable {cs}

/-- **A put** adds the object where nothing was held, and leaves the holdings alone where there was something. -/
theorem Holds.put (hr : cs.RoundTrips) {m : Holdings} (hm : Holds cs st m)
    (h : w.run cs flt st type data now = .ok (st', hash)) (hlow : LowerHash hash)
    (hfit : m hash = none → w.Fits cs flt type data hash) : Holds cs st' (put m hash (type, data)) := by
  by_cases hf : Fresh st hash
  · have hnone := (hm.handle.fresh_iff hlow).mp hf
    obtain ⟨-, -, f, rfl, hreads⟩ := writer_fresh cs hr flt st st' w type data hash now h hf
    exact hm.setLoose hlow hnone (hreads.1 (hfit hnone))
  · obtain rfl := writer_there cs h hf
    obtain ⟨obj, hobj, -⟩ := hm.handle.held hlow hf
    rwa [put_held m hash (type, data) hobj]

end

/-! ## Importing -/

section
variable {cs : Codecs} {cfg : CompressConfig} {flt : Faults} {policy : Policy} {codec : Int} {now : Bytes → Int}
  {bundle : Pack}

/-- What a bundle has at addresses of its index. -/
def bundleObjects (cs : Codecs) (bundle : Pack) (hashes : List Bytes) : List (Bytes × Object) :=
  hashes.filterMap fun hash =>
    match casPackLookup cs false bundle hash with
    | .ok obj => some (hash, obj)
    | .error _ => none

theorem bundleObjects_concat (hashes : List Bytes) (hash : Bytes) (obj : Object)
    (h : casPackLookup cs false bundle hash = .ok obj) :
    bundleObjects cs bundle (hashes ++ [hash]) = bundleObjects cs bundle hashes ++ [(hash, obj)] := by
  unfold bundleObjects
  rw [List.filterMap_append]
  simp [h]

/-- Every object of the bundle that passes its check is within the reader's limits in the form it would be stored
in. -/
def BundleFits (cs : Codecs) (cfg : CompressConfig) (flt : Faults) (policy : Policy) (codec : Int) (bundle : Pack) :
    Prop :=
  ∀ hash ∈ casPackHashes bundle, ∀ type data, casPackLookup cs false bundle hash = .ok (type, data) →
    Admitted (type, data) hash → (importWriter cfg policy codec type data hash).Fits cs flt type data hash

theorem lowerHash_packHashes (p : Pack) (hash : Bytes) (h : hash ∈ casPackHashes p) : LowerHash hash := by
  obtain ⟨i, -, rfl⟩ := List.mem_map.mp h
  exact lowerHash_toHex _ (Pack.length_read _ _ _)

/-- **An import** adds the objects of a bundle up to one that does not go through, each of them checked. -/
theorem Holds.import (hr : cs.RoundTrips) {st : Store} {m : Holdings} (hm : Holds cs st m)
    (hfits : BundleFits cs cfg flt policy codec bundle) :
    let r := casPackImport cs cfg flt policy codec (some (treeVerifier flt)) now bundle st
    ∃ pre post, casPackHashes bundle = pre ++ post ∧ (∀ counts, r.2 = .ok counts → post = []) ∧
      (∀ e ∈ bundleObjects cs bundle pre, Admitted e.2 e.1) ∧
      Holds cs r.1 (putAll m (bundleObjects cs bundle pre)) := by
  obtain ⟨pre, post, hxs, hsteps, hend⟩ := runUntil_spec
    (importOne cs cfg flt policy codec (some (treeVerifier flt)) now bundle) ⟨st, 0, 0⟩ (casPackHashes bundle)
  have hinv := hsteps.invariant (fun done ic => (∀ hash ∈ done, hash ∈ casPackHashes bundle) →
    (∀ e ∈ bundleObjects cs bundle done, Admitted e.2 e.1) ∧
      Holds cs ic.store (putAll m (bundleObjects cs bundle done))) [] (fun _ => ⟨by simp [bundleObjects], hm⟩) ?_
  · have hin : ∀ hash ∈ [] ++ pre, hash ∈ casPackHashes bundle := fun hash hmem => by
      rw [hxs]
      simp at hmem
      simp [hmem]
    have hdone := hinv hin
    rw [List.nil_append] at hdone
    refine ⟨pre, post, hxs, ?_, hdone.1, ?_⟩
    · intro counts hok
      rcases hend with ⟨-, hp⟩ | ⟨e, x, rest, he, -, -⟩
      · exact hp
      · unfold casPackImport at hok
        generalize runUntil (importOne cs cfg flt policy codec (some (treeVerifier flt)) now bundle) ⟨st, 0, 0⟩
          (casPackHashes bundle) = out at he hok
        obtain ⟨ic, r⟩ := out
        obtain rfl : r = some e := he
        cases hok
    · have hstore := hdone.2
      unfold casPackImport
      generalize runUntil (importOne cs cfg flt policy codec (some (treeVerifier flt)) now bundle) ⟨st, 0, 0⟩
        (casPackHashes bundle) = out at hstore ⊢
      obtain ⟨ic, r⟩ := out
      cases r <;> exact hstore
  · intro done ic hash ic' ih hstep hin
    have hmem := hin hash (by simp)
    obtain ⟨type, data, hash', hlook, hcheck, hrun⟩ := importOne_ok ic ic' hash hstep
    have hlook' := casPackLookup_noBuf cs hash _ bundle _ hlook
    have hlow := lowerHash_packHashes bundle hash hmem
    -- the object is put at the address it came under
    obtain ⟨hdr, hh⟩ := importWriter_header ic.store type data hash (now hash) _ _ hcheck hrun
    obtain rfl : hash' = hash := by
      have hruns : PutRuns flt ic.store hash
          ((importWriter cfg policy codec type data hash).run cs flt ic.store type data (now hash)) :=
        importWriter_runs ic.store type data hash hdr (now hash) hlow.valid hh _ hcheck
      obtain ⟨f, hf⟩ := hruns
      rw [hrun] at hf
      split at hf
      · split at hf
        · cases hf
        · exact (Prod.mk.inj (Except.ok.inj hf)).2
      · exact (Prod.mk.inj (Except.ok.inj hf)).2
    have had := admitted_of_check _ type data hash' hcheck
    obtain ⟨hall, hheld⟩ := ih fun k hk => hin k (by simp [hk])
    rw [bundleObjects_concat done hash' (type, data) hlook', putAll_concat]
    refine ⟨fun e he => ?_, hheld.put hr hrun hlow fun _ => hfits hash' hmem type data hlook' had⟩
    rcases List.mem_append.mp he with he | he
    · exact hall e he
    · obtain rfl := List.mem_singleton.mp he
      exact had

end

/-! ## Losing copies -/

section
variable {cs : Codecs} {st st' : Store} {m : Holdings}

theorem LosesOnly.packed {P : Bytes → Prop} (hfrom : LosesOnly P st st') : st'.packed = st.packed := by
  unfold Store.packed
  rw [hfrom.handle]

/-- The copies that are left are of objects held. -/
theorem CopiesOf.loses {P : Bytes → Prop} (h : CopiesOf cs st m) (hfrom : LosesOnly P st st') : CopiesOf cs st' m := by
  have hcopy : packCopy cs st' = packCopy cs st := by
    unfold packCopy
    rw [hfrom.handle]
  refine ⟨fun hash f hl => ?_, ?_, fun p hp => ?_⟩
  · rcases hfrom.loose hash with heq | ⟨hnone, -⟩
    · exact h.loose hash f (heq ▸ hl)
    · rw [hnone] at hl
      cases hl
  · rw [hfrom.packed, hcopy]
    exact h.packed
  · rw [hfrom.packed]
    exact h.listed p (hfrom.handle ▸ hp)

/-- Loose files that the pack has as well may go. -/
theorem HoldsIn.loses (h : HoldsIn cs st m) (hfrom : LosesOnly (fun hash => st.packed hash = true) st st') :
    HoldsIn cs st' m where
  toCopiesOf := h.toCopiesOf.loses hfrom
  there hash obj hm := by
    obtain ⟨hlow, hf⟩ := h.there hash obj hm
    refine ⟨hlow, fun hf' => hf ?_⟩
    rcases hfrom.loose hash with heq | ⟨-, hpk⟩
    · unfold Fresh Store.hasLoose at hf' ⊢
      rwa [heq, hfrom.packed] at hf'
    · rw [← hfrom.packed, hf'.2] at hpk
      cases hpk

end

/-- What the pack stands in for it has. -/
theorem reclaimable_packed {cs : Codecs} {flt : Faults} {st : Store} {p : Pack} {hash : Bytes} (hp : st.pack = some p)
    (hlow : validHash hash = true) (h : reclaimable cs flt p hash = true) : st.packed hash = true := by
  obtain ⟨obj, hlook, -⟩ := reclaimable_spec cs flt p hash h
  unfold Store.packed
  rw [hp, Option.any_some]
  by_contra hno
  rw [casPackLookup_of_not_exists cs false p hash hlow (by simpa using hno)] at hlook
  cases hlook

/-- **Reclaiming** keeps the holdings. -/
theorem Holds.reclaim {cs : Codecs} {flt : Faults} {st : Store} {m : Holdings} (hm : Holds cs st m)
    (hopen : flt .openPack = false) : Holds cs (casPackReclaim cs flt st packDat).1 m := by
  rcases casPackReclaim_spec cs flt st packDat with ⟨hsame, -⟩ | ⟨p, hp, hfrom⟩
  · rw [hsame]
    exact hm
  · rw [casReloadPack_opens st hopen] at hfrom
    rw [hopen] at hp
    generalize (casPackReclaim cs flt st packDat).1 = st' at hfrom ⊢
    have hloses : LosesOnly (fun hash => (casReloadPack noFaults st).packed hash = true) (casReloadPack noFaults st)
        st' := by
      refine ⟨hfrom.handle, hfrom.file, fun hash => ?_⟩
      rcases hl : st.loose.lookup hash with _ | f
      · -- there was none to lose
        rcases hfrom.loose hash with heq | ⟨hnone, -⟩
        · exact .inl heq
        · exact .inl (hnone.trans hl.symm)
      · rcases hfrom.loose hash with heq | ⟨hnone, hrec⟩
        · exact .inl heq
        · have hlow := (hm.handle.loose hash f hl).1
          exact .inr ⟨hnone, reclaimable_packed hp hlow.valid hrec⟩
    refine (hm.disk.loses hloses).synced ?_
    have hpack : casPackOpen false (st'.file packDat) = st'.pack := by
      rw [hfrom.file, hfrom.handle]
      rfl
    show { st' with pack := casPackOpen false (st'.file packDat) } = st'
    rw [hpack]

/-! ## Packing -/

/-- Whatever is held may be compressed as the packer does it and is within the reader's caps then. -/
def PackFits (cs : Codecs) (policy : Policy) (codec : Int) (m : Holdings) : Prop :=
  ∀ hash obj payload, m hash = some obj → packEncode cs false (packUse policy codec false obj.2) obj.2 = some payload →
    WithinCaps obj.2 payload

theorem LowerHash.toHex_binOf {hash : Bytes} (h : LowerHash hash) : toHex (binOf hash) = hash :=
  (h.toHex_decode (casHexDecode_binOf hash h.valid).1).1

/-- The packer walks over all that is held. -/
theorem HoldsIn.packs {cs : Codecs} {st : Store} {m : Holdings} (h : HoldsIn cs st m) {hash : Bytes} {obj : Object}
    (hm : m hash = some obj) : Packs st hash := by
  obtain ⟨hlow, hf⟩ := h.there hash obj hm
  by_contra hno
  have hp := not_packed_of_not_packs st hash hlow.valid hno
  refine hno ⟨hash, List.mem_append_left _ ((mem_casForeach _ _ _).mpr ⟨rfl, ?_, foreachLists_lower _ hlow⟩), rfl⟩
  by_contra hl
  exact hf ⟨by simpa using hl, hp⟩

/-- What the packer walks over is held. -/
theorem HoldsIn.walked {cs : Codecs} {st : Store} {m : Holdings} (h : HoldsIn cs st m) {name : Bytes}
    (hw : name ∈ packWalk noFaults st st.pack) : LowerHash name ∧ ∃ obj, m name = some obj := by
  unfold packWalk at hw
  rcases List.mem_append.mp hw with hw | hw
  · obtain ⟨-, hl, -⟩ := (mem_casForeach _ _ _).mp hw
    obtain ⟨f, hf⟩ := Option.isSome_iff_exists.mp hl
    obtain ⟨hlow, obj, hm, -⟩ := h.loose name f hf
    exact ⟨hlow, obj, hm⟩
  · cases hp : st.pack with
    | none => simp [hp] at hw
    | some p =>
      rw [hp] at hw
      have hlow := lowerHash_packHashes p name hw
      obtain ⟨obj, hm, -⟩ := h.packed name hlow (h.listed p hp name hw)
      exact ⟨hlow, obj, hm⟩

section
variable {cs : Codecs} (hr : cs.RoundTrips) {st : Store} {m : Holdings} (h : HoldsIn cs st m) {policy : Policy}
  {codec : Int} {keep : Keep} (hfits : PackFits cs policy codec m) {es : List Emitted} (hok : PackedOk es)
  (hs : BinsSorted es) (hbins : es.map Emitted.bin = keptHashes noFaults st st.pack keep)
  (hes : ∀ e ∈ es, packEntry cs noFaults st st.pack policy codec e.bin = .ok e)
include h hbins

/-- What a new pack has is held. -/
theorem HoldsIn.held_of_kept {hash : Bytes} (hlow : LowerHash hash) (hb : binOf hash ∈ es.map Emitted.bin) :
    ∃ obj, m hash = some obj := by
  rw [hbins, mem_keptHashes, mem_collectHashes_noFaults] at hb
  obtain ⟨⟨name, hw, hbin⟩, -⟩ := hb
  obtain ⟨hlow', hm⟩ := h.walked hw
  rwa [← hlow.toHex_binOf, ← hbin, hlow'.toHex_binOf]

include hr hfits hok hs hes

/-- A new pack, filtered or not, has copies of objects held. -/
theorem HoldsIn.repacked_copies : CopiesOf cs (Smolvfs.repacked st es) m := by
  refine ⟨h.loose, fun hash hlow hp => ?_, fun p hp hash hmem => ?_⟩
  · have hb := (repacked_packed_iff st es hok hs hash hlow.valid).mp hp
    obtain ⟨obj, hm⟩ := h.held_of_kept hbins hlow hb
    refine ⟨obj, hm, ?_⟩
    rw [← casOpenObject_eq_packCopy hlow.valid hp]
    have hopen := (h.opens hlow obj).mpr hm
    refine (repacked_open cs hr st policy codec es hok hs hes hash obj hopen hb).1 ⟨fun f hl => ?_, ?_⟩
    · rw [hlow.toHex_binOf] at hl
      exact h.looseIs hl hm
    · exact fun form payload _ _ henc => hfits hash obj payload hm henc
  · obtain rfl := Option.some.inj ((repacked_pack st es hok).symm.trans hp)
    rw [casPackHashes_packOf] at hmem
    obtain ⟨e, he, rfl⟩ := List.mem_map.mp hmem
    have hlow : LowerHash (toHex e.bin) := lowerHash_toHex _ (hok.bins e he)
    rw [repacked_packed_iff st es hok hs _ hlow.valid, binOf_toHex]
    exact List.mem_map_of_mem he

end

/-- **Creating a pack** keeps the holdings. -/
theorem Holds.pack {cs : Codecs} (hr : cs.RoundTrips) {st st' : Store} {m : Holdings} (h : Holds cs st m)
    {policy : Policy} {codec : Int} (hfits : PackFits cs policy codec m)
    (hrun : casPackCreateZ cs noFaults st packDat policy codec = (.ok, st')) : Holds cs st' m := by
  rcases packCreate_ok cs noFaults st st' packDat policy codec none hrun with
    ⟨-, rfl⟩ | ⟨es, -, hbins, hes, hok, hs, rfl⟩
  · exact h
  · refine ⟨h.handle.congr rfl rfl, h.disk.repacked_copies hr hfits hok hs hbins hes, fun hash obj hm => ?_⟩
    have hlow := (h.disk.there hash obj hm).1
    refine ⟨hlow, fun hf => ?_⟩
    -- everything held is walked over, and nothing is filtered out
    have hb : binOf hash ∈ es.map Emitted.bin := by
      rw [hbins]
      exact (mem_kept_iff_packs (casReloadPack noFaults st) hash).mpr (h.disk.packs hm)
    have hp := (repacked_packed_iff (casReloadPack noFaults st) es hok hs hash hlow.valid).mpr hb
    rw [show (repacked (casReloadPack noFaults st) es).packed hash = false from hf.2] at hp
    cases hp

end Smolvfs
