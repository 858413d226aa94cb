import Smolvfs.Htree

/-!
# Reading an htree that was built

`htreeLookupEntry_build`: on the encoding of an ascending directory the lookup
finds what the list has.  A name's bucket, its slot and its record are where the
builder put them, and what the probe meets before them are other names.

`htreeParseDir_build`: the listing of the encoding is the list.
`htreeParseDir_listed`: whatever a listing gives is ascending, with names a
directory takes and addresses in lower case.
-/

namespace Smolvfs

open Octets Probing

/-! ## An entry's data -/

theorem hashBin_of_lower (e : Entry) (h : LowerHash e.hash) : toHex (hashBin e) = e.hash := by
  obtain ⟨bin, hd, -⟩ := casHexDecode_of_valid e.hash h.valid
  unfold hashBin
  rw [if_pos h.1, hd]
  exact (h.toHex_decode hd).1

/-- The data of a record unpacks to the entry. -/
theorem htreeUnpackEntry_recordData (e : Entry) (h : e.Printable) :
    htreeUnpackEntry (recordData e) e.name.bytes = e := by
  have hm := e.mode.isLt
  have hu := e.uid.isLt
  have hg := e.gid.isLt
  have hs := e.mtimeS.isLt
  have hn := e.mtimeNs.isLt
  have hmode : loadLe32 (recordData e) 0 = e.mode.toNat := loadLe32_storeLe _ hm _
  have huid : loadLe32 (recordData e) 4 = e.uid.toNat := by
    unfold recordData
    rw [loadLe32_append _ _ 4 0 (by simp), loadLe32_storeLe _ hu]
  have hgid : loadLe32 (recordData e) 8 = e.gid.toNat := by
    unfold recordData
    rw [loadLe32_append _ _ 8 4 (by simp), loadLe32_append _ _ 4 0 (by simp), loadLe32_storeLe _ hg]
  have hsec : loadLe (slice (recordData e) 12 8) = e.mtimeS.toNat := by
    unfold recordData
    rw [slice_append_of_eq _ _ 12 8 8 (by simp), slice_append_of_eq _ _ 8 4 8 (by simp),
      slice_append_of_eq _ _ 4 0 8 (by simp), slice_front _ _ _ (by simp),
      loadLe_storeLe_of_lt _ _ (by omega)]
  have hns : loadLe32 (recordData e) 20 = e.mtimeNs.toNat := by
    unfold recordData
    rw [loadLe32_append _ _ 20 16 (by simp), loadLe32_append _ _ 16 12 (by simp),
      loadLe32_append _ _ 12 8 (by simp), loadLe32_append _ _ 8 0 (by simp), loadLe32_storeLe _ hn]
  have hbin : slice (recordData e) 24 CAS_HASH_LEN = hashBin e := by
    unfold recordData
    rw [slice_append_of_eq _ _ 24 20 _ (by simp), slice_append_of_eq _ _ 20 16 _ (by simp),
      slice_append_of_eq _ _ 16 12 _ (by simp), slice_append_of_eq _ _ 12 4 _ (by simp),
      slice_append_of_eq _ _ 4 0 _ (by simp)]
    exact slice_all _ _ (by rw [length_hashBin]; rfl)
  unfold htreeUnpackEntry
  rw [hmode, huid, hgid, hsec, hns, hbin, hashBin_of_lower e h.hash, CStr.ofBuf_bytes]
  simp only [BitVec.ofNat_toNat, BitVec.setWidth_eq]

theorem slice_record_key (e : Entry) : slice (record e) 8 e.name.bytes.length = e.name.bytes := by
  unfold record
  rw [slice_append_of_eq _ _ 8 4 _ (by simp), slice_append_of_eq _ _ 4 0 _ (by simp)]
  exact slice_front _ _ _ rfl

theorem slice_record_data (e : Entry) :
    slice (record e) (8 + e.name.bytes.length) HTREE_ENTRY_DATA_LEN = recordData e := by
  unfold record
  rw [slice_append_of_eq _ _ _ (4 + e.name.bytes.length) _ (by rw [length_storeLe]; omega),
    slice_append_of_eq _ _ _ e.name.bytes.length _ (by rw [length_storeLe]),
    slice_append_of_eq e.name.bytes _ e.name.bytes.length 0 _ (by omega)]
  exact slice_all _ _ (by rw [length_recordData]; rfl)

/-- The two lengths a record begins with. -/
theorem loadLe32_record (e : Entry) (rest : Bytes) (hl : e.name.bytes.length ≤ 255) :
    loadLe32 (record e ++ rest) 0 = e.name.bytes.length ∧
      loadLe32 (record e ++ rest) 4 = HTREE_ENTRY_DATA_LEN := by
  have h : record e ++ rest = storeLe 4 e.name.bytes.length ++
      (storeLe 4 HTREE_ENTRY_DATA_LEN ++ (e.name.bytes ++ recordData e ++ rest)) := by
    simp [record]
  rw [h]
  refine ⟨loadLe32_storeLe _ (by omega) _, ?_⟩
  rw [loadLe32_append _ _ 4 0 (by simp)]
  exact loadLe32_storeLe _ (by decide) _

/-! ## Lookups -/

theorem nameCmp_lt_ne (a b : CStr) (h : nameCmp a b = .lt) : a ≠ b := by
  rintro rfl
  rw [nameCmp_self] at h
  cases h

/-- Entries of an ascending directory with one name are the same. -/
theorem NamesAscending.eq_of_name {dir : Dir} (h : NamesAscending dir) (a b : Entry) (ha : a ∈ dir)
    (hb : b ∈ dir) (hn : a.name = b.name) : a = b := by
  induction dir with
  | nil => cases ha
  | cons x xs ih =>
    obtain ⟨hfirst, hrest⟩ := List.pairwise_cons.mp h
    rcases List.mem_cons.mp ha with rfl | ha'
    · rcases List.mem_cons.mp hb with rfl | hb'
      · rfl
      · exact absurd hn (nameCmp_lt_ne _ _ (hfirst b hb'))
    · rcases List.mem_cons.mp hb with rfl | hb'
      · exact absurd hn.symm (nameCmp_lt_ne _ _ (hfirst a ha'))
      · exact ih hrest ha' hb'

theorem dirFind_of_mem (dir : Dir) (h : NamesAscending dir) (e : Entry) (he : e ∈ dir) :
    dirFind dir e.name = .ok e := by
  unfold dirFind
  cases hf : dir.find? fun x => x.name == e.name with
  | none =>
    rw [List.find?_eq_none] at hf
    exact absurd (by simp) (hf e he)
  | some x =>
    have hx := List.mem_of_find?_eq_some hf
    have hn : x.name = e.name := by simpa using List.find?_some hf
    rw [h.eq_of_name x e hx he hn]

theorem dirFind_of_absent (dir : Dir) (name : CStr) (h : ∀ e ∈ dir, e.name ≠ name) :
    dirFind dir name = .error .enotfound := by
  unfold dirFind
  rw [List.find?_eq_none.mpr fun e he => by simpa using h e he]

theorem djbHash_lt (key : Bytes) : djbHash key < 2 ^ 32 := UInt32.toNat_lt _

theorem htreeFramed_build (dir : Dir) : htreeFramed (htreeBuild dir) = true := by
  have hlen := length_htreeBuild dir
  unfold htreeFramed
  rw [Bool.and_eq_true, decide_eq_true_eq]
  refine ⟨by unfold HTREE_HEADER_LEN HTREE_NBUCKETS HTREE_FOOTER_LEN; omega, ?_⟩
  have hm : slice (htreeBuild dir) ((htreeBuild dir).length - HTREE_MAGIC_LEN) HTREE_MAGIC_LEN = HTREE_MAGIC := by
    have hb := length_htreeBody dir
    have h4 : HTREE_MAGIC_LEN = 4 := rfl
    rw [show (htreeBuild dir).length - HTREE_MAGIC_LEN = (htreeBody dir).length + 4 by omega]
    unfold htreeBuild
    rw [slice_append_add, slice_append_of_eq _ _ 4 0 _ (by simp)]
    exact slice_all _ _ rfl
  rw [hm]
  rfl

section
variable (dir : Dir) (hp : ∀ e ∈ dir, e.Printable) (hs : NamesAscending dir)
  (hlen : (htreeBuild dir).length < 2 ^ 32)

theorem cdbLen_build : (htreeBuild dir).length - HTREE_FOOTER_LEN = (htreeBody dir).length := by
  have h1 := length_htreeBuild dir
  have h2 := length_htreeBody dir
  unfold HTREE_FOOTER_LEN
  omega

include hlen in
/-- A bucket's table is where the header says, and has the slots it says. -/
theorem loadLe32_pointer (b : Nat) (hb : b < 256) :
    loadLe32 (htreeBuild dir) (b * 8) = tablePos dir b ∧
      loadLe32 (htreeBuild dir) (b * 8 + 4) = tableSlots dir b := by
  have hptr := slice_tablePointer dir b hb
  have hle := (slice_table dir b hb).2
  have hbody := cdbLen_build dir
  have h0 : loadLe32 (htreeBuild dir) (b * 8 + 0) = loadLe32 (tablePointer dir b) 0 :=
    loadLe32_slice _ _ _ _ _ hptr (by omega)
  have h4 : loadLe32 (htreeBuild dir) (b * 8 + 4) = loadLe32 (tablePointer dir b) 4 :=
    loadLe32_slice _ _ _ _ _ hptr (by omega)
  constructor
  · rw [Nat.add_zero] at h0
    rw [h0]
    exact loadLe32_storeLe _ (by omega) _
  · rw [h4]
    unfold tablePointer
    rw [loadLe32_append _ _ 4 0 (by simp), ← List.append_nil (storeLe 4 (tableSlots dir b))]
    exact loadLe32_storeLe _ (by omega) _

/-- What a bucket's table is made of. -/
theorem mem_bucketItems (b : Nat) (s : Slot) : s ∈ bucketItems dir b ↔
    ∃ e off, (e, off) ∈ recOffsets HTREE_HEADER_LEN dir ∧ bucketOf e.name = b ∧
      s = (djbHash e.name.bytes, off % 2 ^ 32) := by
  unfold bucketItems
  rw [List.mem_map]
  constructor
  · rintro ⟨⟨e, off⟩, h, rfl⟩
    obtain ⟨hm, hb⟩ := List.mem_filter.mp h
    exact ⟨e, off, hm, by simpa using hb, rfl⟩
  · rintro ⟨e, off, hm, hb, rfl⟩
    exact ⟨(e, off), List.mem_filter.mpr ⟨hm, by simpa using hb⟩, rfl⟩

include hlen in
theorem slotFree_item (b : Nat) (s : Slot) (h : s ∈ bucketItems dir b) : slotFree s = false := by
  obtain ⟨e, off, hm, -, rfl⟩ := (mem_bucketItems dir b s).mp h
  obtain ⟨h1, h2, -⟩ := slice_record dir e off hm
  have hbody := length_htreeBuild dir
  unfold slotFree
  simp only [beq_eq_false_iff_ne, ne_eq]
  rw [Nat.mod_eq_of_lt (by omega)]
  omega

include hlen in
theorem holds_bucketTable (b : Nat) :
    Holds slotFree (slotStart (tableSlots dir b)) (bucketTable dir b) (bucketItems dir b) := by
  unfold bucketTable
  exact holds_build _ _ _ _ rfl _ (slotFree_item dir hlen b) (by unfold tableSlots; omega)

include hp hlen in
/-- A slot of the list's own records says yes to its entry's name and nothing else. -/
theorem slotVerdict_item (e : Entry) (off : Nat) (hm : (e, off) ∈ recOffsets HTREE_HEADER_LEN dir) (name : CStr) :
    slotVerdict (htreeBuild dir) (htreeBody dir).length (djbHash name.bytes) name.bytes
        (djbHash e.name.bytes, off % 2 ^ 32) =
      if e.name = name then some (.ok e) else none := by
  obtain ⟨h1, h2, hrec⟩ := slice_record dir e off hm
  obtain ⟨i, hi, he, -⟩ := mem_recOffsets dir _ e off hm
  have hpe : e.Printable := hp e (he ▸ List.getElem_mem hi)
  have h255 := (validName_spec e.name hpe.name).2.1
  have hbuild := length_htreeBuild dir
  have hbody := length_htreeBody dir
  have hlrec := length_record e
  have hoff : off % 2 ^ 32 = off := Nat.mod_eq_of_lt (by omega)
  obtain ⟨hk, hd⟩ := loadLe32_record e [] h255
  rw [List.append_nil] at hk hd
  have hkey : loadLe32 (htreeBuild dir) off = e.name.bytes.length := by
    rw [← hk, ← loadLe32_slice _ _ off _ 0 hrec (by omega), Nat.add_zero]
  have hdat : loadLe32 (htreeBuild dir) (off + 4) = HTREE_ENTRY_DATA_LEN := by
    rw [← hd, ← loadLe32_slice _ _ off _ 4 hrec (by omega)]
  have hname : slice (htreeBuild dir) (off + 8) e.name.bytes.length = e.name.bytes := by
    rw [← slice_slice _ off (record e).length 8 _ (by omega), hrec, slice_record_key]
  have hdata : slice (htreeBuild dir) (off + 8 + e.name.bytes.length) HTREE_ENTRY_DATA_LEN = recordData e := by
    rw [show off + 8 + e.name.bytes.length = off + (8 + e.name.bytes.length) by omega,
      ← slice_slice _ off (record e).length _ _ (by unfold HTREE_ENTRY_DATA_LEN; omega), hrec, slice_record_data]
  unfold slotVerdict
  simp only [hoff, hkey, hdat]
  by_cases hn : e.name = name
  · obtain rfl := hn
    rw [if_neg (by simp), if_neg (by omega), if_neg (by simp), if_neg (by simp),
      if_neg (by unfold HTREE_ENTRY_DATA_LEN; omega), hname, if_neg (by simp), hdata,
      htreeUnpackEntry_recordData e hpe, if_pos rfl]
  · rw [if_neg hn]
    by_cases hh : djbHash e.name.bytes = djbHash name.bytes
    · rw [if_neg (by simpa using hh), if_neg (by omega)]
      by_cases hkl : e.name.bytes.length = name.bytes.length
      · have hne : slice (htreeBuild dir) (off + 8) name.bytes.length ≠ name.bytes := by
          rw [← hkl, hname]
          intro heq
          exact hn (CStr.ext heq)
        rw [if_neg (by simpa using hkl), if_neg (by simp), if_neg (by unfold HTREE_ENTRY_DATA_LEN; omega),
          if_pos hne]
      · rw [if_pos hkl]
    · rw [if_pos hh]

include hlen in
/-- One step of the lookup loop reads the slot it stands at. -/
theorem slotStep_table (b : Nat) (hb : b < 256) (h : Nat) (key : Bytes) (s j : Nat)
    (hs' : s < tableSlots dir b) (hj : j < tableSlots dir b) (y : Slot)
    (hy : slotAt (bucketTable dir b) s j = some y) (hy1 : slotFree y = false → y.1 < 2 ^ 32 ∧ y.2 < 2 ^ 32) :
    slotStep (htreeBuild dir) (htreeBody dir).length h key
        (tablePos dir b + (s + j) % 2 ^ 32 % tableSlots dir b * 8) =
      if slotFree y then some (.error .enotfound)
      else slotVerdict (htreeBuild dir) (htreeBody dir).length h key y := by
  have hbody := cdbLen_build dir
  obtain ⟨-, hin⟩ := slice_table dir b hb
  have htl := length_bucketTable dir b
  have hmod : (s + j) % 2 ^ 32 = s + j := Nat.mod_eq_of_lt (by omega)
  have hpl : (s + j) % tableSlots dir b < (bucketTable dir b).length := by
    rw [htl]
    exact Nat.mod_lt _ (by omega)
  obtain ⟨hslot, hle⟩ := slice_slot dir b hb _ hpl
  have hyt : (bucketTable dir b)[(s + j) % tableSlots dir b] = y := by
    unfold slotAt at hy
    rw [htl, List.getElem?_eq_getElem hpl] at hy
    exact Option.some.inj hy
  rw [hyt] at hslot
  have hl0 : loadLe32 (htreeBuild dir) (tablePos dir b + (s + j) % tableSlots dir b * 8) = y.1 % 2 ^ 32 := by
    have := loadLe32_slice _ _ _ _ 0 hslot (by omega)
    rw [Nat.add_zero] at this
    rw [this]
    unfold encodeSlot loadLe32
    rw [slice_front _ _ _ (by simp), loadLe_storeLe]
    rfl
  have hl4 : loadLe32 (htreeBuild dir) (tablePos dir b + (s + j) % tableSlots dir b * 8 + 4) = y.2 % 2 ^ 32 := by
    rw [loadLe32_slice _ _ _ _ 4 hslot (by omega)]
    unfold encodeSlot
    rw [loadLe32_append _ _ 4 0 (by simp)]
    unfold loadLe32
    rw [slice_all _ _ (by simp), loadLe_storeLe]
    rfl
  unfold slotStep
  simp only [hmod, hl0, hl4]
  rw [if_neg (by omega)]
  cases hf : slotFree y with
  | true =>
    have h0 : y.2 = 0 := by simpa [slotFree] using hf
    simp [slotFree, h0]
  | false =>
    obtain ⟨h1, h2⟩ := hy1 hf
    rw [Nat.mod_eq_of_lt h1, Nat.mod_eq_of_lt h2, show slotFree (y.1, y.2) = false from hf]

include hp hs hlen

/-- **A lookup in a built htree finds what the list has.** -/
theorem htreeLookupEntry_build (name : CStr) : htreeLookupEntry (htreeBuild dir) name = dirFind dir name := by
  unfold htreeLookupEntry
  rw [htreeFramed_build, if_neg (by simp)]
  by_cases hlong : name.bytes.length > CAS_TREE_NAME_MAX
  · rw [if_pos hlong, dirFind_of_absent]
    intro e he heq
    have := (validName_spec e.name (hp e he).name).2.1
    unfold CAS_TREE_NAME_MAX at hlong
    rw [heq] at this
    omega
  rw [if_neg hlong]
  have hb : djbHash name.bytes % HTREE_NBUCKETS < 256 := Nat.mod_lt _ (by decide)
  obtain ⟨htpos, hnslots⟩ := loadLe32_pointer dir hlen _ hb
  simp only [htpos, hnslots, cdbLen_build]
  generalize hbe : djbHash name.bytes % HTREE_NBUCKETS = b at *
  -- the entries with this name are among the bucket's items
  have hitem : ∀ e ∈ dir, e.name = name → ∃ off, (e, off) ∈ recOffsets HTREE_HEADER_LEN dir ∧
      (djbHash e.name.bytes, off % 2 ^ 32) ∈ bucketItems dir b := by
    intro e he hn
    obtain ⟨off, ho⟩ := exists_recOffset dir HTREE_HEADER_LEN e he
    exact ⟨off, ho, (mem_bucketItems dir b _).mpr ⟨e, off, ho, by rw [hn]; exact hbe, rfl⟩⟩
  by_cases hz : tableSlots dir b = 0
  · rw [if_pos hz, dirFind_of_absent]
    intro e he hn
    obtain ⟨off, -, hi⟩ := hitem e he hn
    have hpos := List.length_pos_of_mem hi
    unfold tableSlots at hz
    omega
  rw [if_neg hz]
  have hstart : djbHash name.bytes / 256 % tableSlots dir b < tableSlots dir b := Nat.mod_lt _ (by omega)
  have hold := holds_bucketTable dir hlen b
  have hlt : ∀ y ∈ bucketItems dir b, y.1 < 2 ^ 32 ∧ y.2 < 2 ^ 32 := by
    intro y hy
    obtain ⟨e, off, -, -, rfl⟩ := (mem_bucketItems dir b y).mp hy
    exact ⟨djbHash_lt _, Nat.mod_lt _ (by omega)⟩
  have hverdict : ∀ y ∈ bucketItems dir b, ∃ e ∈ dir,
      slotVerdict (htreeBuild dir) (htreeBody dir).length (djbHash name.bytes) name.bytes y =
        if e.name = name then some (.ok e) else none := by
    intro y hy
    obtain ⟨e, off, hm, -, rfl⟩ := (mem_bucketItems dir b y).mp hy
    obtain ⟨i, hi, rfl, -⟩ := mem_recOffsets dir _ e off hm
    exact ⟨_, List.getElem_mem hi, slotVerdict_item dir hp hlen _ off hm name⟩
  generalize hf : (fun i => slotStep (htreeBuild dir) (htreeBody dir).length (djbHash name.bytes) name.bytes
    (tablePos dir b + (djbHash name.bytes / 256 % tableSlots dir b + i) % 2 ^ 32 % tableSlots dir b * 8)) = f
  have hstep : ∀ j < (bucketTable dir b).length, ∀ y,
      slotAt (bucketTable dir b) (djbHash name.bytes / 256 % tableSlots dir b) j = some y →
      f j = if slotFree y then some (.error .enotfound)
        else slotVerdict (htreeBuild dir) (htreeBody dir).length (djbHash name.bytes) name.bytes y := by
    intro j hj y hy
    rw [length_bucketTable] at hj
    rw [← hf]
    refine slotStep_table dir hlen b hb _ _ _ j hstart hj y hy fun hyf => ?_
    exact hlt y (hold.only y (List.mem_of_getElem? hy) hyf)
  have hfree : ∀ j < (bucketTable dir b).length, ∀ y,
      slotAt (bucketTable dir b) (djbHash name.bytes / 256 % tableSlots dir b) j = some y → slotFree y = true →
      f j = some (.error .enotfound) := by
    intro j hj y hy hyf
    rw [hstep j hj y hy, if_pos hyf]
  have hused : ∀ j < (bucketTable dir b).length, ∀ y,
      slotAt (bucketTable dir b) (djbHash name.bytes / 256 % tableSlots dir b) j = some y → slotFree y = false →
      f j = slotVerdict (htreeBuild dir) (htreeBody dir).length (djbHash name.bytes) name.bytes y := by
    intro j hj y hy hyf
    rw [hstep j hj y hy, hyf]
    rfl
  rw [← length_bucketTable dir b] at *
  by_cases hex : ∃ e ∈ dir, e.name = name
  · obtain ⟨e, he, hn⟩ := hex
    obtain ⟨off, ho, hi⟩ := hitem e he hn
    have hv := slotVerdict_item dir hp hlen e off ho name
    rw [if_pos hn] at hv
    have hfind := dirFind_of_mem dir hs e he
    rw [hn] at hfind
    rw [hfind, probe_of_mem _ _ _ _ hold _ f _ hused _ hi (by rw [slotStart, hn]) _ hv ?_]
    · rfl
    · intro y hy
      obtain ⟨e', he', hv'⟩ := hverdict y hy
      by_cases hn' : e'.name = name
      · rw [hv', if_pos hn', hs.eq_of_name e' e he' he (hn'.trans hn.symm)]
        exact .inr rfl
      · rw [hv', if_neg hn']
        exact .inl rfl
  · have hno : ∀ e ∈ dir, e.name ≠ name := fun e he hn => hex ⟨e, he, hn⟩
    have hnone : ∀ y ∈ bucketItems dir b,
        slotVerdict (htreeBuild dir) (htreeBody dir).length (djbHash name.bytes) name.bytes y = none := by
      intro y hy
      obtain ⟨e', he', hv'⟩ := hverdict y hy
      rw [hv', if_neg (hno e' he')]
    rw [dirFind_of_absent dir name hno]
    rcases probe_of_absent _ _ _ _ hold _ f _ _ hfree hused hnone with h | h
    · rw [h]
      rfl
    · rw [h]
      rfl

end

/-! ## Listings -/

section
variable (dir : Dir)

theorem tablePos_succ (b : Nat) : tablePos dir (b + 1) = tablePos dir b + tableSlots dir b * 8 := by
  unfold tablePos
  rw [List.range_succ, List.map_append, List.sum_append]
  simp only [List.map_cons, List.map_nil, List.sum_cons, List.sum_nil]
  omega

theorem tablePos_zero : tablePos dir 0 = 2048 + (htreeRecords dir).length := rfl

theorem tablePos_last : tablePos dir 256 = (htreeBody dir).length := by
  have h := offsetOf_length ((List.range HTREE_NBUCKETS).map (tableBytes dir))
  rw [List.length_map, List.length_range] at h
  rw [tablePos_eq dir 256 (Nat.le_refl _), length_htreeBody]
  unfold htreeTables
  unfold HTREE_NBUCKETS at *
  omega

theorem tablePos_ge (b : Nat) : tablePos dir 0 ≤ tablePos dir b := by
  induction b with
  | zero => exact Nat.le_refl _
  | succ b ih =>
    have := tablePos_succ dir b
    omega

variable (hlen : (htreeBuild dir).length < 2 ^ 32)

include hlen

/-- The scan of the header stops at the first table that is in use. -/
theorem recEnd_build : recEnd (htreeBuild dir) = 2048 + (htreeRecords dir).length := by
  have hbody := cdbLen_build dir
  have hinit : ((htreeBuild dir).length - HTREE_FOOTER_LEN) % 2 ^ 32 = (htreeBody dir).length := by
    rw [Nat.mod_eq_of_lt (by omega), hbody]
  have hlast := tablePos_last dir
  have hfold : ∀ k, k ≤ 256 → (List.range k).foldl (fun stop b =>
      if loadLe32 (htreeBuild dir) (b * 8 + 4) > 0 ∧ loadLe32 (htreeBuild dir) (b * 8) < stop
      then loadLe32 (htreeBuild dir) (b * 8) else stop) (htreeBody dir).length =
        if tablePos dir k = tablePos dir 0 then (htreeBody dir).length else tablePos dir 0 := by
    intro k
    induction k with
    | zero => simp
    | succ k ih =>
      intro hk
      obtain ⟨hpos, hslots⟩ := loadLe32_pointer dir hlen k (by omega)
      have hsucc := tablePos_succ dir k
      have hge := tablePos_ge dir k
      have hin := (slice_table dir k (by omega)).2
      rw [List.range_succ, List.foldl_append, ih (by omega), List.foldl_cons, List.foldl_nil, hpos, hslots]
      by_cases hz : tablePos dir k = tablePos dir 0
      · rw [if_pos hz]
        by_cases hu : tableSlots dir k = 0
        · rw [if_neg (by omega), if_pos (by omega)]
        · rw [if_pos (by omega), if_neg (by omega), hz]
      · rw [if_neg hz, if_neg (by omega), if_neg (by omega)]
  unfold recEnd
  rw [hinit, show HTREE_NBUCKETS = 256 from rfl, hfold 256 (Nat.le_refl _), tablePos_zero, hlast]
  split
  · next h => exact h
  · rfl

end

theorem htreeRecords_cons (e : Entry) (es : Dir) : htreeRecords (e :: es) = record e ++ htreeRecords es := rfl

/-- The listing loop reads the records of an ascending directory back. -/
theorem parseRecords_records (es dir : Dir) (hp : ∀ e ∈ es, e.Printable) (hs : NamesAscending (dir ++ es))
    (fuel : Nat) (hf : (htreeRecords es).length ≤ fuel) :
    parseRecords false fuel (htreeRecords es) dir = .ok (dir ++ es) := by
  induction es generalizing dir fuel with
  | nil => cases fuel <;> simp [parseRecords, htreeRecords]
  | cons e es ih =>
    have he := hp e (by simp)
    obtain ⟨hne, h255, -, -⟩ := validName_spec e.name he.name
    have hpos : 0 < e.name.bytes.length := List.length_pos_iff.mpr hne
    have hlrec := length_record e
    obtain ⟨hk, hd⟩ := loadLe32_record e (htreeRecords es) h255
    rw [htreeRecords_cons] at hf ⊢
    rw [List.length_append] at hf
    have h56 : HTREE_ENTRY_DATA_LEN = 56 := rfl
    obtain ⟨fuel, rfl⟩ : ∃ k, fuel = k + 1 := ⟨fuel - 1, by omega⟩
    have hcat : dir ++ e :: es = dir ++ [e] ++ es := by simp
    rw [hcat] at hs
    have hord := outOfOrder_eq_false dir e (List.pairwise_append.mp hs).1
    have hkey : slice (record e ++ htreeRecords es) 8 e.name.bytes.length = e.name.bytes := by
      rw [slice_append_left _ _ _ _ (by omega), slice_record_key]
    have hdata : slice (record e ++ htreeRecords es) (8 + e.name.bytes.length) HTREE_ENTRY_DATA_LEN =
        recordData e := by
      rw [slice_append_left _ _ _ _ (by omega), slice_record_data]
    have hdrop : (record e ++ htreeRecords es).drop (8 + e.name.bytes.length + HTREE_ENTRY_DATA_LEN) =
        htreeRecords es := by
      rw [show 8 + e.name.bytes.length + HTREE_ENTRY_DATA_LEN = (record e).length by omega, List.drop_left]
    unfold parseRecords
    rw [if_neg (by rw [List.length_append]; omega)]
    simp only [hk, hd, hkey, hdata, hdrop, htreeUnpackEntry_recordData e he, hord, casTreeDirAdd_ok dir e he.name]
    rw [if_neg (by rw [List.length_append]; unfold CAS_TREE_NAME_MAX; omega), if_neg (by simp),
      ih (dir ++ [e]) (fun x hx => hp x (by simp [hx])) hs fuel (by omega), hcat]

/-- **The listing of a built htree is the list.** -/
theorem htreeParseDir_build (dir : Dir) (hp : ∀ e ∈ dir, e.Printable) (hs : NamesAscending dir)
    (hlen : (htreeBuild dir).length < 2 ^ 32) : htreeParseDir false (htreeBuild dir) = .ok dir := by
  have hbody := cdbLen_build dir
  have hblen := length_htreeBody dir
  have hbl := length_htreeBuild dir
  have hcheck : slice (htreeBuild dir) 0 (htreeBody dir).length = htreeBody dir := slice_front _ _ _ rfl
  have hstored : loadLe32 (htreeBuild dir) (htreeBody dir).length = adler32 (htreeBody dir) := by
    unfold htreeBuild
    rw [loadLe32_append _ _ _ 0 (by omega), loadLe32_storeLe]
    exact adler32_lt _
  have hregion : slice (htreeBuild dir) HTREE_HEADER_LEN (recEnd (htreeBuild dir) - HTREE_HEADER_LEN) =
      htreeRecords dir := by
    rw [recEnd_build dir hlen, show HTREE_HEADER_LEN = 2048 from rfl, Nat.add_sub_cancel_left]
    exact slice_records dir
  unfold htreeParseDir
  rw [htreeFramed_build, if_neg (by simp), hbody, hcheck, hstored, if_neg (by simp)]
  simp only [hregion]
  exact parseRecords_records dir [] hp hs _ (Nat.le_refl _)

/-- Every entry the listing loop adds keeps the list ascending and printable. -/
theorem parseRecords_listed (noMem : Bool) (fuel : Nat) (region : Bytes) (dir out : Dir)
    (hp : ∀ e ∈ dir, e.Printable) (hs : NamesAscending dir)
    (h : parseRecords noMem fuel region dir = .ok out) : (∀ e ∈ out, e.Printable) ∧ NamesAscending out := by
  induction fuel generalizing region dir with
  | zero =>
    obtain rfl := Except.ok.inj h
    exact ⟨hp, hs⟩
  | succ fuel ih =>
    unfold parseRecords at h
    split at h
    · obtain rfl := Except.ok.inj h
      exact ⟨hp, hs⟩
    · simp only [] at h
      split at h
      · cases h
      · next hsize =>
        split at h
        · cases h
        · next hord =>
          cases ha : casTreeDirAdd noMem dir (htreeUnpackEntry
              (slice region (8 + loadLe32 region 0) HTREE_ENTRY_DATA_LEN) (slice region 8 (loadLe32 region 0))) with
          | error e => simp [ha] at h
          | ok dir' =>
            obtain ⟨hname, rfl⟩ := casTreeDirAdd_spec _ _ _ _ ha
            simp only [ha] at h
            refine ih _ _ ?_ (namesAscending_concat dir _ hs (by simpa using hord)) h
            intro e he
            rcases List.mem_append.mp he with he | he
            · exact hp e he
            · obtain rfl := List.mem_singleton.mp he
              refine ⟨lowerHash_toHex _ ?_, hname⟩
              have h56 : HTREE_ENTRY_DATA_LEN = 56 := rfl
              have h32 : CAS_HASH_LEN = 32 := rfl
              have hdl := length_slice region (8 + loadLe32 region 0) HTREE_ENTRY_DATA_LEN (by omega)
              exact length_slice _ _ _ (by omega)

/-- **Whatever a listing gives is ascending and printable.** -/
theorem htreeParseDir_listed (noMem : Bool) (data : Bytes) (dir : Dir) (h : htreeParseDir noMem data = .ok dir) :
    (∀ e ∈ dir, e.Printable) ∧ NamesAscending dir := by
  unfold htreeParseDir at h
  split at h
  · cases h
  · split at h
    · cases h
    · exact parseRecords_listed noMem _ _ [] dir (by simp) List.Pairwise.nil h

end Smolvfs
