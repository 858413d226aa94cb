import Smolvfs.PackForm

/-!
# What a repack does to reads

After `pack_create` on the depot's own pack and a reload, a hash that went into
the new pack is read from the copy the packer took (`repacked_open`): the loose
one under the lower-case name when there is one, where before the old pack was
asked first.  A raw copy may have been compressed, and then the reader's caps
decide.  `RepackKeeps` is what this asks of one hash, and
`repack_keeps_reads_iff` that this is what the whole call depends on.
-/

namespace Smolvfs

open Octets

/-! ## The copy the packer takes -/

/-- The packer walks over the address of `hash`. -/
def Packs (st : Store) (hash : Bytes) : Prop := ∃ name ∈ packWalk noFaults st st.pack, binOf name = binOf hash

/-- The stored form that is copied: the loose file's under the lower-case name, or the old pack's. -/
def copyTaken (st : Store) (bin : Bytes) : Option (Bytes × Bytes) :=
  match st.loose.lookup (toHex bin) with
  | some f => some (objRegion f.data, objTrailer f.data)
  | none =>
    st.pack.bind fun p =>
      match packRawRegion p bin with
      | .ok form => some form
      | .error _ => none

theorem casHexDecode_binOf (hash : Bytes) (h : validHash hash = true) :
    casHexDecode hash = some (binOf hash) ∧ (binOf hash).length = 32 := by
  obtain ⟨bin, hb, hl⟩ := casHexDecode_of_valid hash h
  unfold binOf
  rw [hb]
  exact ⟨rfl, hl⟩

theorem validHash_toHex (bin : Bytes) (h : bin.length = 32) : validHash (toHex bin) = true :=
  (lowerHash_toHex bin h).valid

theorem casOpenLooseRaw_noFaults (st : Store) (hash : Bytes) (hv : validHash hash = true) (f : LooseFile)
    (hl : st.loose.lookup hash = some f) (form : Bytes × Bytes)
    (h : casOpenLooseRaw noFaults st hash = .ok form) :
    ¬ (f.data.length < CAS_PACK_BLOCK ∨ f.data.length > 2 ^ 30) ∧
      form = (objRegion f.data, objTrailer f.data) ∧ trailerFramed form.2 ≠ none := by
  unfold casOpenLooseRaw at h
  rw [if_neg (by simp [hv]), looseMap_noFaults, hl] at h
  simp only [] at h
  split at h
  · cases h
  · next map hm =>
    split at hm
    · cases hm
    · next hsz =>
      obtain rfl := Except.ok.inj hm
      split at h
      · cases h
      · next hf =>
        obtain rfl := Except.ok.inj h
        exact ⟨hsz, rfl, hf⟩

theorem casOpenLooseRaw_absent (st : Store) (hash : Bytes) (hv : validHash hash = true)
    (hl : st.loose.lookup hash = none) : casOpenLooseRaw noFaults st hash = .error .enotfound := by
  unfold casOpenLooseRaw
  rw [if_neg (by simp [hv]), looseMap_noFaults, hl]

/-- Where a copied form came from. -/
theorem packSource_cases (st : Store) (old : Option Pack) (bin : Bytes) (hb : bin.length = 32)
    (form : Bytes × Bytes) (h : packSource noFaults st old bin = .ok form) :
    (∃ f, st.loose.lookup (toHex bin) = some f ∧
      ¬ (f.data.length < CAS_PACK_BLOCK ∨ f.data.length > 2 ^ 30) ∧
      form = (objRegion f.data, objTrailer f.data) ∧ trailerFramed form.2 ≠ none) ∨
    (st.loose.lookup (toHex bin) = none ∧ ∃ p, old = some p ∧ packRawRegion p bin = .ok form) := by
  have hv := validHash_toHex bin hb
  unfold packSource at h
  cases hl : st.loose.lookup (toHex bin) with
  | some f =>
    refine .inl ⟨f, rfl, ?_⟩
    cases hr : casOpenLooseRaw noFaults st (toHex bin) with
    | ok src =>
      rw [hr] at h
      obtain rfl := Except.ok.inj h
      exact casOpenLooseRaw_noFaults st _ hv f hl _ hr
    | error rc =>
      -- the file is there, so it is not the old pack that is asked
      have hne : rc ≠ .enotfound := by
        rintro rfl
        unfold casOpenLooseRaw at hr
        rw [if_neg (by simp [hv]), looseMap_noFaults, hl] at hr
        simp only [] at hr
        split at hr
        · next e he =>
          split at he
          · obtain rfl := Except.error.inj he
            cases hr
          · cases he
        · split at hr <;> cases hr
      rw [hr] at h
      cases rc <;> simp_all
  | none =>
    rw [casOpenLooseRaw_absent st _ hv hl] at h
    refine .inr ⟨rfl, ?_⟩
    cases old with
    | none => cases h
    | some p =>
      simp only [] at h
      cases hr : packRawRegion p bin with
      | error e => simp [hr] at h
      | ok src =>
        rw [hr] at h
        obtain rfl := Except.ok.inj h
        exact ⟨p, rfl, hr⟩

/-- What a repack must find for `hash`, which reads as `obj`, to stay so: the loose file it copies, if
there is one, is the object too, and a raw copy compresses within the reader's caps. -/
structure RepackKeeps (cs : Codecs) (st : Store) (policy : Policy) (codec : Int) (hash : Bytes)
    (obj : Object) : Prop where
  copy : ∀ f, st.loose.lookup (toHex (binOf hash)) = some f → looseRead cs f.data = .ok obj
  caps : ∀ form payload, copyTaken st (binOf hash) = some form → trailerFramed form.2 = some false →
    packEncode cs false (packUse policy codec false obj.2) obj.2 = some payload → WithinCaps obj.2 payload

/-- The loose file under the lower-case name has a region that is not the one its header announces. -/
def Misframed (st : Store) (hash : Bytes) : Prop :=
  ∃ f, st.loose.lookup (toHex (binOf hash)) = some f ∧ ¬ WellFramed (objRegion f.data) (objTrailer f.data)

/-! ## Reading after the repack -/

section
variable (cs : Codecs) (st : Store) (hash : Bytes)

theorem casOpenObject_ok_valid (flt : Faults) (obj : Object) (h : casOpenObject cs flt st hash = .ok obj) :
    validHash hash = true := by
  unfold casOpenObject at h
  split at h
  · cases h
  · next hv => simpa using hv

/-- A hash the pack has an entry for is read from there. -/
theorem casOpenObject_of_form (p : Pack) (src tr : Bytes) (hv : validHash hash = true) (hp : st.pack = some p)
    (h : casPackLookup cs false p hash = formRead cs src tr) :
    casOpenObject cs noFaults st hash = formRead cs src tr := by
  have hne := emittedRead_ne_enotfound cs false ⟨[], src, tr, 0⟩
  unfold casOpenObject
  rw [if_neg (by simp [hv]), hp]
  have hno : noFaults (.bufObj hash) = false := rfl
  simp only [hno, h]
  unfold formRead
  split
  · next heq => exact absurd heq hne
  · rfl

/-- A hash the packer does not walk over is read from its loose file before and after. -/
theorem not_packed_of_not_packs (hv : validHash hash = true) (h : ¬ Packs st hash) : st.packed hash = false := by
  unfold Store.packed
  cases hp : st.pack with
  | none => rfl
  | some p =>
    obtain ⟨hd, hlen⟩ := casHexDecode_binOf hash hv
    unfold casPackExists
    simp only [Option.any_some, hd]
    cases hf : findEntry p (binOf hash) with
    | none => rfl
    | some i =>
      unfold findEntry at hf
      obtain ⟨-, hi, heq⟩ := Search.bsearch_sound _ _ _ _ _ hf
      rw [memcmp_eq_eq _ _ (by rw [hlen]; exact p.length_read _ _)] at heq
      refine absurd ⟨toHex (p.entryHash i), ?_, ?_⟩ h
      · unfold packWalk
        rw [hp]
        exact List.mem_append_right _ (List.mem_map.mpr ⟨i, List.mem_range.mpr hi, rfl⟩)
      · rw [binOf_toHex, heq]

end

section
variable (cs : Codecs) (hr : cs.RoundTrips) (st : Store) (policy : Policy) (codec : Int) (es : List Emitted)
  (hok : PackedOk es) (hs : BinsSorted es)
  (hes : ∀ e ∈ es, packEntry cs noFaults st st.pack policy codec e.bin = .ok e)

/-- The depot after the new pack was written and the handle reloaded. -/
def repacked (st : Store) (es : List Emitted) : Store :=
  casReloadPack noFaults (st.setFile packDat (packImage es))

include hok in
theorem repacked_pack : (repacked st es).pack = some (packOf es hok) := by
  unfold repacked casReloadPack
  simp only [setFile_self]
  exact casPackOpen_image es hok

include hok

theorem repacked_unpacked (hash : Bytes) (hv : validHash hash = true) (h : binOf hash ∉ es.map Emitted.bin) :
    (repacked st es).packed hash = false := by
  obtain ⟨hd, hlen⟩ := casHexDecode_binOf hash hv
  unfold Store.packed
  rw [repacked_pack st es hok]
  unfold casPackExists
  simp only [Option.any_some, hd]
  rw [findEntry_image_none es hok (binOf hash) hlen]
  · rfl
  · intro e he heq
    exact h (heq ▸ List.mem_map_of_mem he)

/-- A hash the new pack does not have is read from its loose file. -/
theorem repacked_open_other (hash : Bytes) (hv : validHash hash = true)
    (h : binOf hash ∉ es.map Emitted.bin) :
    casOpenObject cs noFaults (repacked st es) hash = looseOpen cs noFaults st hash := by
  rw [casOpenObject_of_unpacked cs noFaults _ hash hv (repacked_unpacked st es hok hash hv h)]
  rfl

include hs in
/-- The new pack has what was put into it, and nothing else. -/
theorem repacked_packed_iff (hash : Bytes) (hv : validHash hash = true) :
    (repacked st es).packed hash = true ↔ binOf hash ∈ es.map Emitted.bin := by
  constructor
  · intro h
    by_contra hno
    rw [repacked_unpacked st es hok hash hv hno] at h
    cases h
  · intro h
    obtain ⟨hd, hlen⟩ := casHexDecode_binOf hash hv
    obtain ⟨e, he, hbin⟩ := List.mem_map.mp h
    obtain ⟨i, hi, heq⟩ := List.getElem_of_mem he
    unfold Store.packed
    rw [repacked_pack st es hok]
    unfold casPackExists
    simp only [Option.any_some, hd]
    rw [findEntry_image es hok hs (binOf hash) hlen i hi (by rw [heq, hbin])]
    rfl

include hr hs hes

/-- **A read of a packed hash after the repack**: the object comes back exactly when the packer found it
so, unless it copied a file that is not framed as its header says. -/
theorem repacked_open (hash : Bytes) (obj : Object) (hopen : casOpenObject cs noFaults st hash = .ok obj)
    (hp : binOf hash ∈ es.map Emitted.bin) :
    (RepackKeeps cs st policy codec hash obj → casOpenObject cs noFaults (repacked st es) hash = .ok obj) ∧
    (casOpenObject cs noFaults (repacked st es) hash = .ok obj →
      RepackKeeps cs st policy codec hash obj ∨ Misframed st hash) := by
  have hv := casOpenObject_ok_valid cs st hash noFaults obj hopen
  obtain ⟨hd, hlen⟩ := casHexDecode_binOf hash hv
  obtain ⟨e, he, hbin⟩ := List.mem_map.mp hp
  have hentry := hes e he
  rw [hbin] at hentry
  obtain ⟨src, tr, -, -, hsrc, -⟩ := packEntry_ok cs noFaults st st.pack policy codec _ e hentry
  -- the copy is the object if and only if the loose file taken, if any, is
  have hcopy : formRead cs src tr = .ok obj ↔
      ∀ f, st.loose.lookup (toHex (binOf hash)) = some f → looseRead cs f.data = .ok obj := by
    rcases packSource_cases st st.pack _ hlen _ hsrc with ⟨f, hl, hsz, hform, -⟩ | ⟨hl, p, hpk, hraw⟩
    · obtain ⟨rfl, rfl⟩ := Prod.mk.inj hform
      rw [hl, ← looseRead_iff_form cs f.data obj hsz]
      exact ⟨fun h g hg => Option.some.inj hg ▸ h, fun h => h f rfl⟩
    · have hlook := casPackLookup_of_raw cs p hash _ src tr hd hraw
      rw [casOpenObject_of_form cs st hash p src tr hv hpk hlook] at hopen
      rw [hl]
      exact ⟨fun _ f hf => by simp at hf, fun _ => hopen⟩
  have htaken : copyTaken st (binOf hash) = some (src, tr) := by
    unfold copyTaken
    rcases packSource_cases st st.pack _ hlen _ hsrc with ⟨f, hl, -, hform, -⟩ | ⟨hl, p, hpk, hraw⟩
    · rw [hl, hform]
    · simp [hl, hpk, hraw]
  -- the entry is found and decoded
  obtain ⟨i, hi, heq⟩ := List.getElem_of_mem he
  have hafter : e.Whole → casOpenObject cs noFaults (repacked st es) hash = formRead cs e.region e.trailer := by
    intro hw
    have hlook := casPackLookup_image cs false es hok hs i hi (by rw [heq]; exact hw) hash
      (by rw [heq, hbin]; exact hd)
    rw [heq] at hlook
    exact casOpenObject_of_form cs _ hash _ e.region e.trailer hv (repacked_pack st es hok) hlook
  by_cases hwf : WellFramed src tr
  · cases hf : trailerFramed tr with
    | none =>
      -- without a magic nothing reads, before or after
      have hno : formRead cs src tr ≠ .ok obj := by
        unfold formRead emittedRead
        simp [hf]
      refine ⟨fun hk => absurd (hcopy.mpr hk.copy) hno, fun _ => ?_⟩
      rcases packSource_cases st st.pack _ hlen _ hsrc with ⟨f, -, -, -, hm⟩ | ⟨hl, -⟩
      · exact absurd hf hm
      · exact absurd (hcopy.mpr fun f hf' => by rw [hl] at hf'; cases hf') hno
    | some framed =>
      have hw := (packEntry_read cs hr st st.pack policy codec _ src tr e hentry hsrc hwf framed hf).2.1
      rw [hafter hw, packEntry_read_iff cs hr st st.pack policy codec _ src tr e hentry hsrc hwf framed hf obj]
      constructor
      · intro hk
        exact ⟨hcopy.mpr hk.copy, fun hfr payload => hk.caps (src, tr) payload htaken (by rw [← hfr]; exact hf)⟩
      · rintro ⟨hform, hcaps⟩
        refine .inl ⟨hcopy.mp hform, ?_⟩
        intro form payload hform' hraw henc
        rw [htaken] at hform'
        obtain rfl := Option.some.inj hform'
        rw [hf] at hraw
        exact hcaps (Option.some.inj hraw) payload henc
  · -- only a loose file can be misframed: what the old pack was read from is not
    have hno : formRead cs src tr ≠ .ok obj := fun h => hwf (wellFramed_of_read cs src tr obj h)
    refine ⟨fun hk => absurd (hcopy.mpr hk.copy) hno, fun _ => ?_⟩
    rcases packSource_cases st st.pack _ hlen _ hsrc with ⟨f, hl, -, hform, -⟩ | ⟨hl, -⟩
    · obtain ⟨rfl, rfl⟩ := Prod.mk.inj hform
      exact .inr ⟨f, hl, hwf⟩
    · exact absurd (hcopy.mpr fun f hf' => by rw [hl] at hf'; cases hf') hno

end

/-! ## A depot with two copies -/

def zeroBin : Bytes := List.replicate 32 0

/-- The trailer of a blob of one octet. -/
def byteTrailer : Bytes := mkTrailer CAS_PACK_TRAILER_MAGIC (headerText tBlob 1 ++ [0])

def byteEntry (x : UInt8) : Emitted := ⟨zeroBin, [x], byteTrailer, 1⟩

theorem packedOk_byteEntry (x : UInt8) : PackedOk [byteEntry x] where
  bins := by simp [byteEntry, zeroBin]
  trailers := by
    have h : byteTrailer.length = 64 := by decide
    simp [byteEntry, h]
  size := by
    rw [length_packImage _ (by simp [byteEntry, zeroBin])]
    have h : byteTrailer.length = 64 := by decide
    simp [packBody, byteEntry, Emitted.block, h]

/-- One address, with the blob `x` in the pack and the blob `y` loose. -/
def twoCopies (x y : UInt8) : Store where
  loose := AList.singleton zeroHash ⟨y :: byteTrailer, 0⟩
  file p := if p = packDat then some (packImage [byteEntry x]) else none
  pack := some (packOf [byteEntry x] (packedOk_byteEntry x))

theorem toHex_zeroBin : toHex zeroBin = zeroHash := by decide

theorem twoCopies_sync (x y : UInt8) :
    casPackOpen false ((twoCopies x y).file packDat) = (twoCopies x y).pack :=
  casPackOpen_image _ (packedOk_byteEntry x)

theorem loose_twoCopies : casOpenLooseRaw noFaults (twoCopies 1 2) zeroHash = .ok ([2], byteTrailer) := by
  have h : casOpenLooseRaw noFaults ⟨AList.singleton zeroHash ⟨2 :: byteTrailer, 0⟩, fun _ => none, none⟩
      zeroHash = .ok ([2], byteTrailer) := by decide +kernel
  exact h

theorem kept_twoCopies : keptHashes noFaults (twoCopies 1 2) (twoCopies 1 2).pack none = [zeroBin] := by
  have hloose : (casForeach noFaults (twoCopies 1 2)).1 = [zeroHash] := by
    have h : (casForeach noFaults ⟨AList.singleton zeroHash ⟨2 :: byteTrailer, 0⟩, fun _ => none, none⟩).1 =
        [zeroHash] := by decide +kernel
    exact h
  have hpack : (twoCopies 1 2).pack = some (packOf [byteEntry 1] (packedOk_byteEntry 1)) := rfl
  have hold : casPackHashes (packOf [byteEntry 1] (packedOk_byteEntry 1)) = [zeroHash] := by
    rw [casPackHashes_packOf]
    exact congrArg (fun h => [h]) toHex_zeroBin
  unfold keptHashes collectHashes
  rw [hloose, hpack]
  simp only [hold]
  decide +kernel

theorem entry_twoCopies (old : Option Pack) :
    packEntry [] noFaults (twoCopies 1 2) old .never CAS_CODEC_NONE zeroBin = .ok (byteEntry 2) := by
  have hp : packParseHeader (trailerHeader byteTrailer) = some (tBlob, 1) := by decide +kernel
  unfold packEntry packSource
  rw [toHex_zeroBin, loose_twoCopies]
  simp only [hp]
  rfl

theorem packCreate_twoCopies : casPackCreate [] noFaults (twoCopies 1 2) packDat =
    (.ok, (twoCopies 1 2).setFile packDat (packImage [byteEntry 2])) := by
  have hes : packEntries [] noFaults (twoCopies 1 2) (twoCopies 1 2).pack .never CAS_CODEC_NONE 0 [zeroBin] =
      .ok [byteEntry 2] := by
    unfold packEntries
    rw [entry_twoCopies]
    rfl
  have hold : casPackOpen (noFaults .openPack) ((twoCopies 1 2).file packDat) = (twoCopies 1 2).pack :=
    twoCopies_sync 1 2
  refine packCreate_run [] noFaults _ packDat .never CAS_CODEC_NONE none (fun _ _ => rfl) [byteEntry 2] ?_
    (by simp) ?_ (packedOk_byteEntry 2).size
  · rw [hold]
    exact kept_twoCopies
  · rw [hold]
    exact hes

/-- A depot whose pack is the image of one blob reads that blob. -/
theorem open_byteEntry (st : Store) (x : UInt8) (hp : st.pack = some (packOf [byteEntry x] (packedOk_byteEntry x)))
    (hx : formRead [] [x] byteTrailer = .ok (tBlob, [x])) :
    casOpenObject [] noFaults st zeroHash = .ok (tBlob, [x]) := by
  have hlook := casPackLookup_image [] false [byteEntry x] (packedOk_byteEntry x) (by simp [BinsSorted]) 0
    (by simp) ⟨?_, by simp [byteEntry]⟩ zeroHash (by rw [← toHex_zeroBin, casHexDecode_toHex]; rfl)
  · rw [casOpenObject_of_form [] st zeroHash _ [x] byteTrailer (by decide) hp hlook, hx]
  · intro type n h
    have hp : packParseHeader (trailerHeader byteTrailer) = some (tBlob, 1) := by decide +kernel
    have h' : packParseHeader (trailerHeader byteTrailer) = some (type, n) := h
    rw [hp] at h'
    exact (Prod.mk.inj (Option.some.inj h')).2.symm

/-! ## The result -/

theorem mem_kept_iff_packs (st : Store) (hash : Bytes) :
    binOf hash ∈ keptHashes noFaults st st.pack none ↔ Packs st hash := by
  rw [mem_keptHashes, mem_collectHashes_noFaults]
  simp [Packs, Keep.accepts]

/-- Every object that reads before reads as the same afterwards. -/
def KeepsReads (cs : Codecs) (st st' : Store) : Prop :=
  ∀ hash obj, casOpenObject cs noFaults st hash = .ok obj → casOpenObject cs noFaults st' hash = .ok obj

/-- **Repacking the depot's own pack preserves every read exactly when, for each readable hash it packs,
the copy it takes is the object the reader saw and stays within the reader's caps.**  The converse
leaves out a loose file whose region is not framed as its header says, which is refused where it is but
may be read as something else in the pack. -/
theorem repack_keeps_reads_iff (cs : Codecs) (hr : cs.RoundTrips) (st st' : Store) (policy : Policy)
    (codec : Int) (hsync : st.pack = casPackOpen false (st.file packDat))
    (h : casPackCreateZ cs noFaults st packDat policy codec = (.ok, st')) :
    ((∀ hash obj, casOpenObject cs noFaults st hash = .ok obj → Packs st hash →
        RepackKeeps cs st policy codec hash obj) →
      KeepsReads cs st (casReloadPack noFaults st')) ∧
    (KeepsReads cs st (casReloadPack noFaults st') →
      ∀ hash obj, casOpenObject cs noFaults st hash = .ok obj → Packs st hash →
        RepackKeeps cs st policy codec hash obj ∨ Misframed st hash) := by
  have hold : casPackOpen (noFaults .openPack) (st.file packDat) = st.pack := hsync.symm
  have hcases := packCreate_ok cs noFaults st st' packDat policy codec none h
  simp only [hold] at hcases
  rcases hcases with ⟨hnil, rfl⟩ | ⟨es, -, hbins, hes, hok, hs, rfl⟩
  · -- nothing to pack: the pack is the one it was
    have hsame : casReloadPack noFaults st' = st' := by
      unfold casReloadPack
      rw [hold]
    have hnone : ∀ hash, ¬ Packs st' hash := by
      intro hash hp
      rw [← mem_kept_iff_packs, hnil] at hp
      cases hp
    rw [hsame]
    exact ⟨fun _ _ _ ho => ho, fun _ hash _ _ hp => absurd hp (hnone hash)⟩
  · constructor
    · intro hk hash obj hopen
      by_cases hp : Packs st hash
      · exact (repacked_open cs hr st policy codec es hok hs hes hash obj hopen
          (by rw [hbins, mem_kept_iff_packs]; exact hp)).1 (hk hash obj hopen hp)
      · have hv := casOpenObject_ok_valid cs st hash noFaults obj hopen
        have hother := repacked_open_other cs st es hok hash hv (by rw [hbins, mem_kept_iff_packs]; exact hp)
        rw [casOpenObject_of_unpacked cs noFaults st hash hv (not_packed_of_not_packs st hash hv hp)] at hopen
        exact hother.trans hopen
    · intro hk hash obj hopen hp
      exact (repacked_open cs hr st policy codec es hok hs hes hash obj hopen
        (by rw [hbins, mem_kept_iff_packs]; exact hp)).2 (hk hash obj hopen)

/-- The depot with two different copies meets the call's hypotheses; the copy taken is not the one read. -/
theorem repack_keeps_reads_twoCopies :
    ∃ st', casPackCreateZ [] noFaults (twoCopies 1 2) packDat .never CAS_CODEC_NONE = (.ok, st') ∧
      (KeepsReads [] (twoCopies 1 2) (casReloadPack noFaults st') →
        ∀ hash obj, casOpenObject [] noFaults (twoCopies 1 2) hash = .ok obj → Packs (twoCopies 1 2) hash →
          RepackKeeps [] (twoCopies 1 2) .never CAS_CODEC_NONE hash obj ∨ Misframed (twoCopies 1 2) hash) :=
  ⟨_, packCreate_twoCopies, (repack_keeps_reads_iff [] roundTrips_nil (twoCopies 1 2) _ .never CAS_CODEC_NONE
    (twoCopies_sync 1 2).symm packCreate_twoCopies).2⟩

/-- Packing a depot whose pack holds `1` where the loose file holds `2` turns the object that is read
from `1` into `2`. -/
theorem repack_takes_other_copy : ∃ st',
    casPackCreate [] noFaults (twoCopies 1 2) packDat = (.ok, st') ∧
      casOpenObject [] noFaults (twoCopies 1 2) zeroHash = .ok (tBlob, [1]) ∧
      casOpenObject [] noFaults (casReloadPack noFaults st') zeroHash = .ok (tBlob, [2]) := by
  refine ⟨_, packCreate_twoCopies, ?_, ?_⟩
  · exact open_byteEntry _ 1 rfl (by decide +kernel)
  · exact open_byteEntry _ 2 (repacked_pack _ _ (packedOk_byteEntry 2)) (by decide +kernel)

end Smolvfs
