import Smolvfs.Repack

/-!
# Which objects a new pack holds

`pack_create` under any faults: a call that fails leaves the file at the path as
it was, and one that succeeds should hold the addresses of the loose objects and
of the old pack that the filter keeps.  `pack_contents_iff` says when it does:
the iterators reached every one of them and the list had room for it, and the
filter left something to pack.  No result of an iterator, of `collect_hash` or
of opening the old pack is looked at, so otherwise the pack comes out short.
-/

namespace Smolvfs

open Octets

/-- The packfile has an entry for the address. -/
def InPack (file : Option Bytes) (bin : Bytes) : Prop :=
  ∃ p, casPackOpen false file = some p ∧ ∃ i < p.entryCount, p.entryHash i = bin

/-- A loose file is named by the address. -/
def InLoose (st : Store) (bin : Bytes) : Prop :=
  ∃ name, st.hasLoose name = true ∧ validHash name = true ∧ binOf name = bin

theorem inPack_image (es : List Emitted) (h : PackedOk es) (bin : Bytes) :
    InPack (some (packImage es)) bin ↔ bin ∈ es.map Emitted.bin := by
  unfold InPack
  rw [casPackOpen_image es h]
  constructor
  · rintro ⟨p, hp, i, hi, rfl⟩
    obtain rfl := Option.some.inj hp
    rw [packOf_entryHash es h i hi]
    exact List.mem_map_of_mem (List.getElem_mem _)
  · intro hm
    obtain ⟨e, he, rfl⟩ := List.mem_map.mp hm
    obtain ⟨i, hi, rfl⟩ := List.getElem_of_mem he
    exact ⟨_, rfl, i, hi, packOf_entryHash es h i hi⟩

theorem inPack_of_hashes (p : Pack) (name : Bytes) (h : name ∈ casPackHashes p) :
    ∃ i < p.entryCount, p.entryHash i = binOf name := by
  obtain ⟨i, hi, rfl⟩ := List.mem_map.mp h
  exact ⟨i, List.mem_range.mp hi, (binOf_toHex _).symm⟩

section
variable (cs : Codecs) (flt : Faults) (st st' : Store) (path : Bytes) (policy : Policy) (codec : Int)
  (keep : Keep)

/-- What the new pack should hold. -/
def Wanted (bin : Bytes) : Prop :=
  (InLoose st bin ∨ InPack (st.file path) bin) ∧ keep.accepts bin = true

/-- The walk over the depot, in buckets that can be opened, and over the old pack, if it can be opened,
comes to the address at a place the list can grow to. -/
def Walked (bin : Bytes) : Prop :=
  ∃ i name, (packWalk flt st (casPackOpen (flt .openPack) (st.file path)))[i]? = some name ∧
    binOf name = bin ∧ Room flt i

/-- Everything wanted is walked over, and there is something wanted if there was something packed; or
nothing wanted is walked over, and the old pack holds what is wanted as it is. -/
def WalkComplete : Prop :=
  (∀ bin, Wanted st path keep bin → Walked flt st path bin) ∧
      ((∃ bin, Wanted st path keep bin) ∨ ∀ bin, ¬ InPack (st.file path) bin) ∨
    (∀ bin, Wanted st path keep bin → ¬ Walked flt st path bin) ∧
      ∀ bin, InPack (st.file path) bin ↔ Wanted st path keep bin

/-- The walk meets nothing but loose objects and entries of the old pack. -/
theorem inLoose_or_inPack_of_walked (bin : Bytes) (h : Walked flt st path bin) :
    InLoose st bin ∨ InPack (st.file path) bin := by
  obtain ⟨i, name, hi, rfl, -⟩ := h
  rcases List.mem_append.mp (List.mem_of_getElem? hi) with hm | hm
  · unfold casForeach at hm
    split at hm
    · cases hm
    · obtain ⟨hk, hl⟩ := List.mem_filter.mp hm
      unfold foreachLists at hl
      simp only [Bool.and_eq_true] at hl
      refine .inl ⟨name, ?_, hl.1.1, rfl⟩
      unfold Store.hasLoose
      exact AList.lookup_isSome.mpr hk
  · right
    unfold InPack
    cases hf : flt .openPack with
    | true =>
      rw [hf] at hm
      cases hfile : st.file path <;> simp [hfile, casPackOpen] at hm
    | false =>
      rw [hf] at hm
      cases ho : casPackOpen false (st.file path) with
      | none => simp [ho] at hm
      | some p =>
        rw [ho] at hm
        exact ⟨p, rfl, inPack_of_hashes p name hm⟩

theorem mem_kept_iff_walked (bin : Bytes) :
    bin ∈ keptHashes flt st (casPackOpen (flt .openPack) (st.file path)) keep ↔
      Walked flt st path bin ∧ keep.accepts bin = true := by
  rw [mem_keptHashes, mem_collectHashes]
  rfl

/-- **Repacking is all or nothing up to what the walk misses.**  A call that fails leaves the file at the
path as it was.  After one that succeeds the file holds exactly the wanted addresses if and only if the
walk was complete. -/
theorem pack_contents_iff (rc : Status) (h : packCreate cs flt st path policy codec keep = (rc, st')) :
    (rc ≠ .ok → st'.file path = st.file path) ∧
    (rc = .ok → ((∀ bin, InPack (st'.file path) bin ↔ Wanted st path keep bin) ↔
      WalkComplete flt st path keep)) := by
  refine ⟨fun hrc => by rw [packCreate_failed cs flt st st' path policy codec keep rc h hrc], ?_⟩
  rintro rfl
  have hkept := mem_kept_iff_walked flt st path keep
  have hwanted : ∀ bin, Walked flt st path bin → keep.accepts bin = true → Wanted st path keep bin :=
    fun bin hw hk => ⟨inLoose_or_inPack_of_walked flt st path bin hw, hk⟩
  rcases packCreate_ok cs flt st st' path policy codec keep h with ⟨hnil, rfl⟩ | ⟨es, hne, hbins, -, hok, -, rfl⟩
  · -- nothing was kept, and the old pack is still there
    have hnone : ∀ bin, Wanted st' path keep bin → ¬ Walked flt st' path bin := by
      intro bin hw hwalk
      have := (hkept bin).mpr ⟨hwalk, hw.2⟩
      rw [hnil] at this
      cases this
    constructor
    · intro hset
      exact .inr ⟨hnone, hset⟩
    · rintro (⟨hall, hsome⟩ | ⟨-, hset⟩)
      · have hno : ∀ bin, ¬ Wanted st' path keep bin := fun bin hw => hnone bin hw (hall bin hw)
        rcases hsome with ⟨bin, hw⟩ | hempty
        · exact absurd hw (hno bin)
        · exact fun bin => ⟨fun hp => absurd hp (hempty bin), fun hw => absurd hw (hno bin)⟩
      · exact hset
  · have hset : ∀ bin, InPack ((st.setFile path (packImage es)).file path) bin ↔
        Walked flt st path bin ∧ keep.accepts bin = true := by
      intro bin
      rw [setFile_self, inPack_image es hok, hbins, hkept]
    have hsome : ∃ bin, Walked flt st path bin ∧ keep.accepts bin = true := by
      obtain ⟨e, he⟩ := List.exists_mem_of_ne_nil es hne
      exact ⟨e.bin, (hkept e.bin).mp (hbins ▸ List.mem_map_of_mem he)⟩
    obtain ⟨bin₀, hw₀, hk₀⟩ := hsome
    constructor
    · intro hcontents
      refine .inl ⟨?_, .inl ⟨bin₀, hwanted bin₀ hw₀ hk₀⟩⟩
      intro bin hw
      exact ((hset bin).mp ((hcontents bin).mpr hw)).1
    · rintro (⟨hall, -⟩ | ⟨hnone, -⟩)
      · intro bin
        rw [hset bin]
        exact ⟨fun hw => hwanted bin hw.1 hw.2, fun hw => ⟨hall bin hw, hw.2⟩⟩
      · exact absurd hw₀ (hnone bin₀ (hwanted bin₀ hw₀ hk₀))

end

/-! ## A pack that cannot be opened -/

def oneBin : Bytes := List.replicate 32 0x11

def oneEntry : Emitted := ⟨oneBin, [2], byteTrailer, 1⟩

theorem packedOk_oneEntry : PackedOk [oneEntry] where
  bins := by simp [oneEntry, oneBin]
  trailers := by
    have h : byteTrailer.length = 64 := by decide
    simp [oneEntry, h]
  size := by
    rw [length_packImage _ (by simp [oneEntry, oneBin])]
    have h : byteTrailer.length = 64 := by decide
    simp [packBody, oneEntry, Emitted.block, h]

/-- One object in the pack alone, another one loose. -/
def packedAndLoose : Store where
  loose := AList.singleton (toHex oneBin) ⟨2 :: byteTrailer, 0⟩
  file p := if p = packDat then some (packImage [byteEntry 1]) else none
  pack := some (packOf [byteEntry 1] (packedOk_byteEntry 1))

/-- Only opening the pack fails. -/
def packUnopened : Faults := fun s => s == .openPack

theorem packCreate_packUnopened : packCreate [] packUnopened packedAndLoose packDat .never CAS_CODEC_NONE none =
    (.ok, packedAndLoose.setFile packDat (packImage [oneEntry])) := by
  have hkept : keptHashes packUnopened packedAndLoose none none = [oneBin] := by
    have h : keptHashes packUnopened ⟨AList.singleton (toHex oneBin) ⟨2 :: byteTrailer, 0⟩, fun _ => none, none⟩
        none none = [oneBin] := by decide +kernel
    exact h
  have hentry : packEntries [] packUnopened packedAndLoose none .never CAS_CODEC_NONE 0 [oneBin] =
      .ok [oneEntry] := by
    have h : packEntries [] packUnopened
        ⟨AList.singleton (toHex oneBin) ⟨2 :: byteTrailer, 0⟩, fun _ => none, none⟩ none .never CAS_CODEC_NONE 0
        [oneBin] = .ok [oneEntry] := by decide +kernel
    exact h
  refine packCreate_run [] packUnopened _ packDat .never CAS_CODEC_NONE none ?_ [oneEntry] ?_ (by simp) ?_
    packedOk_oneEntry.size
  · intro s hs
    simpa [packUnopened] using hs
  · exact hkept
  · exact hentry

/-- The run in which the pack cannot be opened meets the hypothesis: its contents are right exactly if the
walk was complete. -/
theorem pack_contents_packUnopened : ∃ st',
    packCreate [] packUnopened packedAndLoose packDat .never CAS_CODEC_NONE none = (.ok, st') ∧
      ((∀ bin, InPack (st'.file packDat) bin ↔ Wanted packedAndLoose packDat none bin) ↔
        WalkComplete packUnopened packedAndLoose packDat none) :=
  ⟨_, packCreate_packUnopened, (pack_contents_iff [] packUnopened packedAndLoose _ packDat .never
    CAS_CODEC_NONE none .ok packCreate_packUnopened).2 rfl⟩

/-- **The packed object is gone** when the old pack cannot be opened, and the call says it succeeded. -/
theorem pack_unopened_loses : ∃ st',
    packCreate [] packUnopened packedAndLoose packDat .never CAS_CODEC_NONE none = (.ok, st') ∧
      Wanted packedAndLoose packDat none zeroBin ∧ ¬ InPack (st'.file packDat) zeroBin := by
  refine ⟨_, packCreate_packUnopened, ⟨.inr ?_, rfl⟩, ?_⟩
  · exact (inPack_image [byteEntry 1] (packedOk_byteEntry 1) zeroBin).mpr (by simp [byteEntry])
  · rw [setFile_self, inPack_image [oneEntry] packedOk_oneEntry]
    decide

end Smolvfs
