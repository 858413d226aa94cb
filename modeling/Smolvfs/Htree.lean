import Smolvfs.Lib.Probing
import Smolvfs.TreeEntry

/-!
# The htree encoding

`htree_build`, `htree_parse_dir` and `htree_lookup_entry` of `cas-tree.c`.  An
encoding is a header of 256 table pointers, the records in list order, one
open-addressed table for each bucket of name hashes, and a footer with a
checksum.  A listing walks the records, a lookup follows the tables.

`htreeLookupEntry_build`: on an encoding of entries with distinct names the
lookup finds what the list has; `htreeParseDir_build`: the listing of one is the
list.
-/

namespace Smolvfs

open Octets Probing

def HTREE_MAGIC : Bytes := [72, 84, 118, 49]
def HTREE_MAGIC_LEN : Nat := 4
def HTREE_FOOTER_LEN : Nat := 8
def HTREE_NBUCKETS : Nat := 256
def HTREE_HEADER_LEN : Nat := HTREE_NBUCKETS * 8
def HTREE_ENTRY_DATA_LEN : Nat := 56

/-- One octet of `adler32`'s loop. -/
def adlerStep (ab : Nat × Nat) (c : UInt8) : Nat × Nat :=
  ((ab.1 + c.toNat) % 65521, (ab.2 + (ab.1 + c.toNat) % 65521) % 65521)

/-- `adler32` -/
def adler32 (data : Bytes) : Nat :=
  let ab := data.foldl adlerStep (1, 0)
  ab.2 * 2 ^ 16 + ab.1

/-- `djb_hash` -/
def djbHash (key : Bytes) : Nat := (key.foldl (fun h c => h * 33 ^^^ c.toUInt32) (5381 : UInt32)).toNat

/-! ## Building -/

/-- The child's address as a record holds it. -/
def hashBin (e : Entry) : Bytes :=
  if e.hash.length = CAS_HASH_HEX then (casHexDecode e.hash).getD (List.replicate CAS_HASH_LEN 0)
  else List.replicate CAS_HASH_LEN 0

/-- The 56 octets after a record's key. -/
def recordData (e : Entry) : Bytes :=
  storeLe 4 e.mode.toNat ++ (storeLe 4 e.uid.toNat ++ (storeLe 4 e.gid.toNat ++
    (storeLe 8 e.mtimeS.toNat ++ (storeLe 4 e.mtimeNs.toNat ++ hashBin e))))

def record (e : Entry) : Bytes :=
  storeLe 4 e.name.bytes.length ++ (storeLe 4 HTREE_ENTRY_DATA_LEN ++ (e.name.bytes ++ recordData e))

def htreeRecords (dir : Dir) : Bytes := (dir.map record).flatten

/-- `rec_offsets` -/
def recOffsets : Nat → Dir → List (Entry × Nat)
  | _, [] => []
  | pos, e :: es => (e, pos) :: recOffsets (pos + (record e).length) es

/-- `bucket_of` -/
def bucketOf (name : CStr) : Nat := djbHash name.bytes % HTREE_NBUCKETS

/-- A slot of a table: a name hash and a record's place. -/
abbrev Slot := Nat × Nat

def slotFree (s : Slot) : Bool := s.2 == 0

def slotStart (nslots : Nat) (s : Slot) : Nat := s.1 / 256 % nslots

/-- What goes into bucket `b`'s table, in the order it is put there. -/
def bucketItems (dir : Dir) (b : Nat) : List Slot :=
  ((recOffsets HTREE_HEADER_LEN dir).filter fun eo => bucketOf eo.1.name == b).map
    fun eo => (djbHash eo.1.name.bytes, eo.2 % 2 ^ 32)

/-- `table_nslots` -/
def tableSlots (dir : Dir) (b : Nat) : Nat := (bucketItems dir b).length * 2

def bucketTable (dir : Dir) (b : Nat) : List Slot :=
  build slotFree (slotStart (tableSlots dir b)) (tableSlots dir b) (0, 0) (bucketItems dir b)

def encodeSlot (s : Slot) : Bytes := storeLe 4 s.1 ++ storeLe 4 s.2

def tableBytes (dir : Dir) (b : Nat) : Bytes := (bucketTable dir b).flatMap encodeSlot

def htreeTables (dir : Dir) : Bytes := ((List.range HTREE_NBUCKETS).map (tableBytes dir)).flatten

/-- `table_pos` when bucket `b` is written. -/
def tablePos (dir : Dir) (b : Nat) : Nat :=
  HTREE_HEADER_LEN + (htreeRecords dir).length + ((List.range b).map fun c => tableSlots dir c * 8).sum

/-- Bucket `b`'s entry of the header. -/
def tablePointer (dir : Dir) (b : Nat) : Bytes := storeLe 4 (tablePos dir b) ++ storeLe 4 (tableSlots dir b)

def htreeHeader (dir : Dir) : Bytes := (List.range HTREE_NBUCKETS).flatMap (tablePointer dir)

/-- All but the footer. -/
def htreeBody (dir : Dir) : Bytes := htreeHeader dir ++ (htreeRecords dir ++ htreeTables dir)

/-- `htree_build` -/
def htreeBuild (dir : Dir) : Bytes := htreeBody dir ++ (storeLe 4 (adler32 (htreeBody dir)) ++ HTREE_MAGIC)

/-! ## Reading -/

/-- `load_le32` -/
def loadLe32 (data : Bytes) (pos : Nat) : Nat := loadLe (slice data pos 4)

/-- `htree_unpack_entry` -/
def htreeUnpackEntry (data key : Bytes) : Entry where
  mode := BitVec.ofNat 32 (loadLe32 data 0)
  uid := BitVec.ofNat 32 (loadLe32 data 4)
  gid := BitVec.ofNat 32 (loadLe32 data 8)
  mtimeS := BitVec.ofNat 64 (loadLe (slice data 12 8))
  mtimeNs := BitVec.ofNat 32 (loadLe32 data 20)
  hash := toHex (slice data 24 CAS_HASH_LEN)
  name := CStr.ofBuf key

/-- The size and magic checks both readers make. -/
def htreeFramed (data : Bytes) : Bool :=
  decide (HTREE_HEADER_LEN + HTREE_FOOTER_LEN ≤ data.length) &&
    slice data (data.length - HTREE_MAGIC_LEN) HTREE_MAGIC_LEN == HTREE_MAGIC

/-- `rec_end`: where the first table in use starts, or the footer. -/
def recEnd (data : Bytes) : Nat :=
  (List.range HTREE_NBUCKETS).foldl (fun stop b =>
    if loadLe32 data (b * 8 + 4) > 0 ∧ loadLe32 data (b * 8) < stop then loadLe32 data (b * 8) else stop)
    ((data.length - HTREE_FOOTER_LEN) % 2 ^ 32)

/-- The loop of `htree_parse_dir` over what is left of the records; each takes more than eight octets of
the `fuel` off. -/
def parseRecords (noMem : Bool) : Nat → Bytes → Dir → Except Status Dir
  | 0, _, dir => .ok dir
  | fuel + 1, region, dir =>
    if region.length < 8 then .ok dir
    else
      let keylen := loadLe32 region 0
      let datalen := loadLe32 region 4
      if datalen ≠ HTREE_ENTRY_DATA_LEN ∨ keylen = 0 ∨ keylen > CAS_TREE_NAME_MAX ∨
          8 + keylen + datalen > region.length then .error .err
      else
        let e := htreeUnpackEntry (slice region (8 + keylen) HTREE_ENTRY_DATA_LEN) (slice region 8 keylen)
        if outOfOrder dir e.name then .error .err
        else
          match casTreeDirAdd noMem dir e with
          | .error _ => .error .err
          | .ok dir => parseRecords noMem fuel (region.drop (8 + keylen + datalen)) dir

/-- `htree_parse_dir` -/
def htreeParseDir (noMem : Bool) (data : Bytes) : Except Status Dir :=
  if htreeFramed data = false then .error .err
  else if loadLe32 data (data.length - HTREE_FOOTER_LEN) ≠
      adler32 (slice data 0 (data.length - HTREE_FOOTER_LEN)) then .error .err
  else
    let region := slice data HTREE_HEADER_LEN (recEnd data - HTREE_HEADER_LEN)
    parseRecords noMem region.length region []

/-- What a slot that names a record says to a lookup; `none` goes on to the next slot. -/
def slotVerdict (data : Bytes) (cdbLen h : Nat) (key : Bytes) (s : Slot) : Option (Except Status Entry) :=
  if s.1 ≠ h then none
  else if s.2 + 8 > cdbLen then some (.error .err)
  else if loadLe32 data s.2 ≠ key.length then none
  else if loadLe32 data (s.2 + 4) ≠ HTREE_ENTRY_DATA_LEN then some (.error .err)
  else if s.2 + 8 + key.length + HTREE_ENTRY_DATA_LEN > cdbLen then some (.error .err)
  else if slice data (s.2 + 8) key.length ≠ key then none
  else some (.ok (htreeUnpackEntry (slice data (s.2 + 8 + key.length) HTREE_ENTRY_DATA_LEN) key))

/-- The slot at `spos`, in the loop of `htree_lookup_entry`. -/
def slotStep (data : Bytes) (cdbLen h : Nat) (key : Bytes) (spos : Nat) : Option (Except Status Entry) :=
  if spos + 8 > cdbLen then some (.error .err)
  else
    let s := (loadLe32 data spos, loadLe32 data (spos + 4))
    if slotFree s then some (.error .enotfound) else slotVerdict data cdbLen h key s

/-- `htree_lookup_entry` -/
def htreeLookupEntry (data : Bytes) (name : CStr) : Except Status Entry :=
  if htreeFramed data = false then .error .err
  else if name.bytes.length > CAS_TREE_NAME_MAX then .error .enotfound
  else
    let h := djbHash name.bytes
    let b := h % HTREE_NBUCKETS
    let tpos := loadLe32 data (b * 8)
    let nslots := loadLe32 data (b * 8 + 4)
    if nslots = 0 then .error .enotfound
    else
      let slot := h / 256 % nslots
      (probe (fun i => slotStep data (data.length - HTREE_FOOTER_LEN) h name.bytes
        (tpos + (slot + i) % 2 ^ 32 % nslots * 8)) nslots 0).getD (.error .enotfound)

/-! ## Sizes -/

theorem adler32_lt (data : Bytes) : adler32 data < 2 ^ 32 := by
  have h : ∀ ab : Nat × Nat, ab.1 < 65521 → ab.2 < 65521 →
      (data.foldl adlerStep ab).1 < 65521 ∧ (data.foldl adlerStep ab).2 < 65521 := by
    induction data with
    | nil => exact fun ab h1 h2 => ⟨h1, h2⟩
    | cons c cs ih => exact fun ab _ _ => ih _ (Nat.mod_lt _ (by omega)) (Nat.mod_lt _ (by omega))
  obtain ⟨h1, h2⟩ := h (1, 0) (by decide) (by decide)
  unfold adler32
  simp only []
  omega

theorem length_hashBin (e : Entry) : (hashBin e).length = 32 := by
  unfold hashBin
  split
  · next h =>
    cases hd : casHexDecode e.hash with
    | none => simp [CAS_HASH_LEN]
    | some bin =>
      have := length_casHexDecode e.hash bin hd
      unfold CAS_HASH_HEX at h
      simp only [Option.getD_some]
      omega
  · simp [CAS_HASH_LEN]

theorem length_recordData (e : Entry) : (recordData e).length = 56 := by
  simp [recordData, length_hashBin]

theorem length_record (e : Entry) : (record e).length = 64 + e.name.bytes.length := by
  simp only [record, List.length_append, length_storeLe, length_recordData]
  omega

theorem length_tablePointer (dir : Dir) (b : Nat) : (tablePointer dir b).length = 8 := by
  simp [tablePointer]

theorem length_htreeHeader (dir : Dir) : (htreeHeader dir).length = 2048 := by
  unfold htreeHeader
  rw [length_flatMap_const _ _ 8 (fun b _ => length_tablePointer dir b), List.length_range]
  rfl

theorem length_encodeSlot (s : Slot) : (encodeSlot s).length = 8 := by
  simp [encodeSlot]

theorem length_bucketTable (dir : Dir) (b : Nat) : (bucketTable dir b).length = tableSlots dir b := by
  simp [bucketTable]

theorem length_tableBytes (dir : Dir) (b : Nat) : (tableBytes dir b).length = tableSlots dir b * 8 := by
  unfold tableBytes
  rw [length_flatMap_const _ _ 8 (fun s _ => length_encodeSlot s), length_bucketTable]

theorem tablePos_eq (dir : Dir) (b : Nat) (hb : b ≤ 256) :
    tablePos dir b = 2048 + (htreeRecords dir).length +
      offsetOf ((List.range HTREE_NBUCKETS).map (tableBytes dir)) b := by
  have hlen : ∀ c, (List.length ∘ tableBytes dir) c = tableSlots dir c * 8 :=
    fun c => length_tableBytes dir c
  unfold tablePos offsetOf
  rw [← List.map_take, List.map_map, List.take_range, show min b HTREE_NBUCKETS = b by
    unfold HTREE_NBUCKETS; omega]
  rw [show List.length ∘ tableBytes dir = fun c => tableSlots dir c * 8 from funext hlen]
  rfl

theorem length_htreeBody (dir : Dir) :
    (htreeBody dir).length = 2048 + ((htreeRecords dir).length + (htreeTables dir).length) := by
  simp only [htreeBody, List.length_append, length_htreeHeader]

theorem length_htreeBuild (dir : Dir) :
    (htreeBuild dir).length = 2048 + ((htreeRecords dir).length + (htreeTables dir).length) + 8 := by
  simp only [htreeBuild, List.length_append, length_htreeBody, length_storeLe, HTREE_MAGIC, List.length_cons,
    List.length_nil]

/-! ## Parts of an encoding -/

theorem loadLe32_append (a b : Bytes) (pos k : Nat) (h : pos = a.length + k) :
    loadLe32 (a ++ b) pos = loadLe32 b k := by
  unfold loadLe32
  rw [slice_append_of_eq a b pos k 4 h]

theorem loadLe32_storeLe (v : Nat) (hv : v < 2 ^ 32) (rest : Bytes) : loadLe32 (storeLe 4 v ++ rest) 0 = v := by
  unfold loadLe32
  rw [slice_front _ _ _ (by simp), loadLe_storeLe_of_lt _ _ (by omega)]

/-- A number in a part of the data, from the part. -/
theorem loadLe32_slice (data part : Bytes) (pos len o : Nat) (h : slice data pos len = part) (ho : o + 4 ≤ len) :
    loadLe32 data (pos + o) = loadLe32 part o := by
  unfold loadLe32
  rw [← h, slice_slice _ _ _ _ _ ho]

section
variable (dir : Dir)

theorem slice_body (off len : Nat) (h : off + len ≤ (htreeBody dir).length) :
    slice (htreeBuild dir) off len = slice (htreeBody dir) off len :=
  slice_append_left _ _ _ _ h

theorem slice_tablePointer (b : Nat) (hb : b < 256) : slice (htreeBuild dir) (b * 8) 8 = tablePointer dir b := by
  have hh := length_htreeHeader dir
  rw [slice_body dir _ _ (by rw [length_htreeBody]; omega)]
  unfold htreeBody
  rw [slice_append_left _ _ _ _ (by omega)]
  have hs := slice_flatMap (List.range HTREE_NBUCKETS) (tablePointer dir) 8
    (fun c _ => length_tablePointer dir c) b (by simpa [HTREE_NBUCKETS] using hb)
  rw [List.getElem_range] at hs
  exact hs

theorem slice_records : slice (htreeBuild dir) 2048 (htreeRecords dir).length = htreeRecords dir := by
  rw [slice_body dir _ _ (by rw [length_htreeBody]; omega)]
  unfold htreeBody
  rw [slice_append_of_eq _ _ _ 0 _ (by rw [length_htreeHeader])]
  exact slice_front _ _ _ rfl

theorem mem_recOffsets (pos : Nat) (e : Entry) (off : Nat) (h : (e, off) ∈ recOffsets pos dir) :
    ∃ i, ∃ hi : i < dir.length, dir[i] = e ∧ off = pos + offsetOf (dir.map record) i := by
  induction dir generalizing pos with
  | nil => cases h
  | cons x xs ih =>
    rcases List.mem_cons.mp h with heq | h
    · obtain ⟨rfl, rfl⟩ := Prod.mk.inj heq
      exact ⟨0, by simp, rfl, by simp⟩
    · obtain ⟨i, hi, h1, h2⟩ := ih _ h
      refine ⟨i + 1, by simpa using hi, h1, ?_⟩
      rw [List.map_cons, offsetOf_cons, h2]
      omega

theorem exists_recOffset (pos : Nat) (e : Entry) (h : e ∈ dir) : ∃ off, (e, off) ∈ recOffsets pos dir := by
  induction dir generalizing pos with
  | nil => cases h
  | cons x xs ih =>
    rcases List.mem_cons.mp h with rfl | h
    · exact ⟨pos, by simp [recOffsets]⟩
    · obtain ⟨off, ho⟩ := ih (pos + (record x).length) h
      exact ⟨off, by simp [recOffsets, ho]⟩

/-- A record is where `rec_offsets` says. -/
theorem slice_record (e : Entry) (off : Nat) (h : (e, off) ∈ recOffsets HTREE_HEADER_LEN dir) :
    2048 ≤ off ∧ off + (record e).length ≤ 2048 + (htreeRecords dir).length ∧
      slice (htreeBuild dir) off (record e).length = record e := by
  obtain ⟨i, hi, rfl, rfl⟩ := mem_recOffsets dir _ e off h
  have hle := offsetOf_add_le (dir.map record) i (by simpa using hi)
  have hsl := slice_flatten (dir.map record) i (by simpa using hi)
  simp only [List.getElem_map] at hle hsl
  have h2048 : HTREE_HEADER_LEN = 2048 := rfl
  refine ⟨by omega, by unfold htreeRecords; omega, ?_⟩
  have hr := slice_records dir
  rw [h2048]
  conv_rhs => rw [← hsl]
  show _ = slice (htreeRecords dir) _ _
  rw [← hr, slice_slice _ _ _ _ _ (by unfold htreeRecords; omega)]

theorem slice_table (b : Nat) (hb : b < 256) :
    slice (htreeBuild dir) (tablePos dir b) (tableSlots dir b * 8) = tableBytes dir b ∧
      tablePos dir b + tableSlots dir b * 8 ≤ (htreeBody dir).length := by
  have hpos := tablePos_eq dir b (by omega)
  have hb' : b < ((List.range HTREE_NBUCKETS).map (tableBytes dir)).length := by
    simpa [HTREE_NBUCKETS] using hb
  have hle := offsetOf_add_le _ b hb'
  have hsl := slice_flatten _ b hb'
  simp only [List.getElem_map, List.getElem_range, length_tableBytes] at hle hsl
  have hbody := length_htreeBody dir
  have hin : tablePos dir b + tableSlots dir b * 8 ≤ (htreeBody dir).length := by
    unfold htreeTables at hbody
    omega
  refine ⟨?_, hin⟩
  rw [slice_body dir _ _ hin]
  unfold htreeBody
  rw [slice_append_of_eq _ _ _ ((htreeRecords dir).length +
      offsetOf ((List.range HTREE_NBUCKETS).map (tableBytes dir)) b) _ (by rw [length_htreeHeader]; omega),
    slice_append_of_eq _ _ _ (offsetOf ((List.range HTREE_NBUCKETS).map (tableBytes dir)) b) _ rfl]
  exact hsl

/-- A slot of a table is where the header's pointer leads. -/
theorem slice_slot (b : Nat) (hb : b < 256) (p : Nat) (hp : p < (bucketTable dir b).length) :
    slice (htreeBuild dir) (tablePos dir b + p * 8) 8 = encodeSlot (bucketTable dir b)[p] ∧
      tablePos dir b + p * 8 + 8 ≤ (htreeBody dir).length := by
  obtain ⟨ht, hle⟩ := slice_table dir b hb
  have hp' := hp
  rw [length_bucketTable] at hp'
  refine ⟨?_, by omega⟩
  have hs := slice_flatMap (bucketTable dir b) encodeSlot 8 (fun s _ => length_encodeSlot s) p hp
  rw [← hs]
  show _ = slice (tableBytes dir b) _ _
  rw [← ht, slice_slice _ _ _ _ _ (by omega)]

end

end Smolvfs
