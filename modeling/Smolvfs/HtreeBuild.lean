import Smolvfs.Lib.Blit
import Smolvfs.HtreeVerify

/-!
# Building an htree in its buffer

`htree_build` of `cas-tree.c` as it writes: into a buffer that was allocated once, record
after record, then bucket after bucket a table whose free slots are read back from the
buffer as zeros.

* `placeSlot_eq`: the loop that looks for a slot ends, and does to the octets what
  inserting does to the table they are of.
* `htreeBuildInPlace_eq`: nothing is written past the end, and the buffer is the encoding.
* `htree_tables_sound`: what its tables are.
-/

namespace Smolvfs

open Octets Blit Probing

/-! ## The code -/

/-- What is written for a record, in the order it is written. -/
def recordPieces (e : Entry) : List Bytes :=
  [storeLe 4 e.name.bytes.length, storeLe 4 HTREE_ENTRY_DATA_LEN, e.name.bytes, storeLe 4 e.mode.toNat,
    storeLe 4 e.uid.toNat, storeLe 4 e.gid.toNat, storeLe 8 e.mtimeS.toNat, storeLe 4 e.mtimeNs.toNat, hashBin e]

/-- The loop over the records: the buffer, the place behind them, and `rec_offsets`. -/
def putRecords : Bytes → Nat → Dir → Option (Bytes × Nat × List Nat)
  | buf, pos, [] => some (buf, pos, [])
  | buf, pos, e :: es => do
    let (buf, next) ← blitSeq buf pos (recordPieces e)
    let (buf, last, offsets) ← putRecords buf next es
    some (buf, last, pos % 2 ^ 32 :: offsets)

/-- The `for (;;)` that looks for a slot, from slot `slot` on; none is an access past the end, or no end. -/
def placeSlot (tablePos nslots : Nat) (item : Slot) : Nat → Bytes → Nat → Option Bytes
  | 0, _, _ => none
  | fuel + 1, buf, slot =>
    let spos := tablePos + slot * 8
    if buf.length < spos + 8 then none
    else if loadLe32 buf (spos + 4) = 0 then
      (blitSeq buf spos [storeLe 4 item.1, storeLe 4 item.2]).map Prod.fst
    else placeSlot tablePos nslots item fuel buf ((slot + 1) % 2 ^ 32 % nslots)

/-- `bucket_count` -/
def bucketCount (dir : Dir) (b : Nat) : Nat := dir.countP fun e => bucketOf e.name == b

/-- `table_nslots` -/
def tableNslots (dir : Dir) (b : Nat) : Nat := bucketCount dir b * 2

/-- The entries of a bucket, out of all of them with their hashes and offsets. -/
def putItems (tablePos nslots b fuel : Nat) (items : List Slot) (buf : Bytes) : Option Bytes :=
  items.foldlM (fun buf item =>
    if item.1 % HTREE_NBUCKETS ≠ b then some buf
    else placeSlot tablePos nslots item fuel buf (slotStart nslots item)) buf

/-- A bucket's header entry and its table; the place of the next table. -/
def putTable (fuel nslots : Nat) (items : List Slot) (b : Nat) (buf : Bytes) (tablePos : Nat) :
    Option (Bytes × Nat) := do
  let (buf, _) ← blitSeq buf (b * 8) [storeLe 4 tablePos, storeLe 4 nslots]
  let buf ← putItems tablePos nslots b fuel items buf
  some (buf, tablePos + nslots * 8)

/-- `total` -/
def htreeTotal (dir : Dir) : Nat :=
  HTREE_HEADER_LEN + (dir.map fun e => 8 + e.name.bytes.length + HTREE_ENTRY_DATA_LEN).sum +
    ((List.range HTREE_NBUCKETS).map fun b => tableNslots dir b * 8).sum + HTREE_FOOTER_LEN

/-- `htree_build` on the buffer it allocates; none is an access past the end of it, or a loop without end. -/
def htreeBuildInPlace (fuel : Nat) (dir : Dir) : Option Bytes := do
  let buf := List.replicate (htreeTotal dir) 0
  let (buf, pos, offsets) ← putRecords buf HTREE_HEADER_LEN dir
  let items := (dir.map fun e => djbHash e.name.bytes).zip offsets
  let (buf, tablePos) ← (List.range HTREE_NBUCKETS).foldlM
    (fun done b => putTable fuel (tableNslots dir b) items b done.1 done.2) (buf, pos)
  let checksum := adler32 (slice buf 0 tablePos)
  let (buf, _) ← blitSeq buf tablePos [storeLe 4 checksum, HTREE_MAGIC]
  some buf

/-! ## Records -/

theorem flatten_recordPieces (e : Entry) : (recordPieces e).flatten = record e := by
  simp [recordPieces, record, recordData]

theorem putRecords_eq (a z c : Bytes) (dir : Dir) (hz : z.length = (htreeRecords dir).length) :
    putRecords (a ++ (z ++ c)) a.length dir =
      some (a ++ (htreeRecords dir ++ c), a.length + (htreeRecords dir).length,
        (recOffsets a.length dir).map fun eo => eo.2 % 2 ^ 32) := by
  induction dir generalizing a z with
  | nil =>
    obtain rfl : z = [] := List.eq_nil_of_length_eq_zero hz
    rfl
  | cons e es ih =>
    rw [htreeRecords_cons, List.length_append] at hz
    obtain ⟨x, y, rfl, hx⟩ : ∃ x y, z = x ++ y ∧ x.length = (record e).length :=
      ⟨z.take (record e).length, z.drop (record e).length, (List.take_append_drop ..).symm, by
        rw [List.length_take]; omega⟩
    rw [List.length_append] at hz
    have hfirst := blitSeq_middle a x (y ++ c) (recordPieces e) (by rw [flatten_recordPieces, hx])
    have hrest := ih (a ++ record e) y (by omega)
    rw [flatten_recordPieces] at hfirst
    rw [List.length_append, List.append_assoc] at hrest
    unfold putRecords
    rw [List.append_assoc x, hfirst]
    simp only [Option.bind_eq_bind, Option.bind_some, hrest, htreeRecords_cons, List.append_assoc, List.length_append,
      recOffsets, List.map_cons, Nat.add_assoc]

/-! ## A table -/

theorem loadLe32_encodeSlot (s : Slot) (rest : Bytes) : loadLe32 (encodeSlot s ++ rest) 4 = s.2 % 2 ^ 32 := by
  unfold encodeSlot
  rw [List.append_assoc, loadLe32_append _ _ 4 0 (by simp)]
  unfold loadLe32
  rw [slice_front _ _ _ (by simp), loadLe_storeLe]
  rfl

section
variable (a c : Bytes) (t : List Slot) (x : Slot)

/-- The octets of a table, split at a slot. -/
theorem table_split (p : Nat) (hp : p < t.length) :
    ∃ before behind, before.length = a.length + p * 8 ∧
      a ++ (t.flatMap encodeSlot ++ c) = before ++ (encodeSlot t[p] ++ behind) ∧
      ∀ y, a ++ ((t.set p y).flatMap encodeSlot ++ c) = before ++ (encodeSlot y ++ behind) := by
  refine ⟨a ++ (t.take p).flatMap encodeSlot, (t.drop (p + 1)).flatMap encodeSlot ++ c, ?_, ?_, ?_⟩
  · rw [List.length_append, length_flatMap_const _ _ 8 (fun s _ => length_encodeSlot s), List.length_take]
    omega
  · have hsplit : t.flatMap encodeSlot = (t.take p ++ t[p] :: t.drop (p + 1)).flatMap encodeSlot := by
      rw [← List.drop_eq_getElem_cons hp, List.take_append_drop]
    rw [hsplit, List.flatMap_append, List.flatMap_cons]
    simp only [List.append_assoc]
  · intro y
    rw [List.set_eq_take_append_cons_drop, if_pos hp, List.flatMap_append, List.flatMap_cons]
    simp only [List.append_assoc]

/-- **The loop for a slot** ends at the first free one, which takes the item. -/
theorem placeSlot_run (hsmall : ∀ y ∈ t, y.2 < 2 ^ 32) (hlen : t.length < 2 ^ 32) (s d : Nat) (hpos : 0 < t.length)
    (hfree : ∀ y, slotAt t s d = some y → slotFree y = true)
    (hbefore : ∀ j < d, ∀ y, slotAt t s j = some y → slotFree y = false) (j fuel : Nat) (hj : j ≤ d)
    (hfuel : d - j < fuel) :
    placeSlot a.length t.length x fuel (a ++ (t.flatMap encodeSlot ++ c)) ((s + j) % t.length) =
      some (a ++ ((t.set ((s + d) % t.length) x).flatMap encodeSlot ++ c)) := by
  induction fuel generalizing j with
  | zero => omega
  | succ fuel ih =>
    have hp : (s + j) % t.length < t.length := Nat.mod_lt _ hpos
    have hslot : slotAt t s j = some t[(s + j) % t.length] := List.getElem?_eq_getElem hp
    have hlt := hsmall _ (List.getElem_mem hp)
    obtain ⟨before, behind, hat, hsplit, hset⟩ := table_split a c t _ hp
    have hread : loadLe32 (before ++ (encodeSlot t[(s + j) % t.length] ++ behind)) (before.length + 4) =
        t[(s + j) % t.length].2 := by
      rw [loadLe32_append _ _ _ 4 rfl, loadLe32_encodeSlot, Nat.mod_eq_of_lt hlt]
    unfold placeSlot
    dsimp only
    rw [hsplit, ← hat, if_neg (by simp only [List.length_append, length_encodeSlot]; omega), hread]
    rcases Nat.lt_or_eq_of_le hj with hlater | rfl
    · -- a slot in use: the next turn is at the one after it
      have hnot := hbefore j hlater _ hslot
      have hnext : ((s + j) % t.length + 1) % 2 ^ 32 % t.length = (s + (j + 1)) % t.length := by
        rw [Nat.mod_eq_of_lt (show (s + j) % t.length + 1 < 2 ^ 32 by omega), Nat.mod_add_mod, Nat.add_assoc]
      rw [if_neg (by simpa [slotFree] using hnot), ← hsplit, hnext]
      exact ih (j + 1) hlater (by omega)
    · have hzero := hfree _ hslot
      have hwrite := blitSeq_middle before (encodeSlot t[(s + j) % t.length]) behind [storeLe 4 x.1, storeLe 4 x.2]
        (by simp [encodeSlot])
      rw [if_pos (by simpa [slotFree] using hzero), hwrite, hset]
      simp [encodeSlot]

/-- **Placing is inserting.** -/
theorem placeSlot_eq (fuel : Nat) (hsmall : ∀ y ∈ t, y.2 < 2 ^ 32) (hlen : t.length < 2 ^ 32)
    (hroom : t.countP (fun y => !slotFree y) < t.length) (hfuel : t.length ≤ fuel) :
    placeSlot a.length t.length x fuel (a ++ (t.flatMap encodeSlot ++ c)) (slotStart t.length x) =
      some (a ++ ((insert slotFree (slotStart t.length) t x).flatMap encodeSlot ++ c)) := by
  obtain ⟨d, hd, hp, hins, hfree, hbefore⟩ := insert_spec slotFree (slotStart t.length) t x hroom
  have hfirst : ∀ y, slotAt t (slotStart t.length x) d = some y → slotFree y = true := by
    intro y hy
    unfold slotAt at hy
    rw [List.getElem?_eq_getElem hp] at hy
    rw [← Option.some.inj hy]
    exact hfree
  have hrun := placeSlot_run a c t x hsmall hlen (slotStart t.length x) d (by omega) hfirst hbefore 0 fuel
    (Nat.zero_le d) (by omega)
  have hhome : (slotStart t.length x + 0) % t.length = slotStart t.length x := by
    unfold slotStart
    rw [Nat.add_zero, Nat.mod_mod]
  rw [hhome] at hrun
  rw [hrun, hins]

/-- **The entries of a bucket** go into its table, in their order. -/
theorem putItems_eq (b fuel : Nat) (items : List Slot) (hitems : ∀ x ∈ items, slotFree x = false ∧ x.2 < 2 ^ 32)
    (hsmall : ∀ y ∈ t, y.2 < 2 ^ 32) (hlen : t.length < 2 ^ 32) (hfuel : t.length ≤ fuel)
    (hroom : t.countP (fun y => !slotFree y) + (items.filter fun x => x.1 % HTREE_NBUCKETS == b).length ≤ t.length) :
    putItems a.length t.length b fuel items (a ++ (t.flatMap encodeSlot ++ c)) =
      some (a ++ (((items.filter fun x => x.1 % HTREE_NBUCKETS == b).foldl
        (insert slotFree (slotStart t.length)) t).flatMap encodeSlot ++ c)) := by
  induction items generalizing t with
  | nil => rfl
  | cons x items ih =>
    unfold putItems
    rw [List.foldlM_cons]
    by_cases hx : x.1 % HTREE_NBUCKETS = b
    · rw [List.filter_cons_of_pos (by simpa using hx), List.length_cons] at hroom
      obtain ⟨hxfree, hxsmall⟩ := hitems x (by simp)
      have hplace := placeSlot_eq a c t x fuel hsmall hlen (by omega) hfuel
      have hlength := length_insert slotFree (slotStart t.length) t x
      have hcount := (used_insert slotFree (slotStart t.length) t x (by omega) hxfree).length_eq
      rw [List.length_cons, ← List.countP_eq_length_filter, ← List.countP_eq_length_filter] at hcount
      have hsmall' : ∀ y ∈ insert slotFree (slotStart t.length) t x, y.2 < 2 ^ 32 := by
        intro y hy
        rcases mem_insert slotFree (slotStart t.length) t x y hy with hy | rfl
        · exact hsmall y hy
        · exact hxsmall
      rw [List.filter_cons_of_pos (by simpa using hx), List.foldl_cons, if_neg (not_not.mpr hx), hplace]
      have hrest := ih (insert slotFree (slotStart t.length) t x) (fun y hy => hitems y (List.mem_cons_of_mem _ hy))
        hsmall' (by omega) (by omega) (by omega)
      rw [hlength] at hrest
      exact hrest
    · rw [List.filter_cons_of_neg (by simpa using hx)] at hroom ⊢
      rw [if_pos hx]
      exact ih t (fun y hy => hitems y (List.mem_cons_of_mem _ hy)) hsmall hlen hfuel hroom

end

theorem encode_free (n : Nat) : (List.replicate n ((0, 0) : Slot)).flatMap encodeSlot = List.replicate (n * 8) 0 := by
  induction n with
  | zero => rfl
  | succ n ih =>
    rw [List.replicate_succ, List.flatMap_cons, ih, Nat.succ_mul, Nat.add_comm, List.replicate_add]
    rfl

/-- **A bucket**: its header entry, and its table where the buffer was zero. -/
theorem putTable_eq (head z mid rest : Bytes) (b fuel nslots : Nat) (items : List Slot)
    (hitems : ∀ x ∈ items, slotFree x = false ∧ x.2 < 2 ^ 32) (hhead : head.length = b * 8) (hz : z.length = 8)
    (hlen : nslots < 2 ^ 32) (hfuel : nslots ≤ fuel)
    (hroom : (items.filter fun x => x.1 % HTREE_NBUCKETS == b).length ≤ nslots) :
    putTable fuel nslots items b (head ++ (z ++ (mid ++ (List.replicate (nslots * 8) 0 ++ rest))))
        (b * 8 + 8 + mid.length) =
      some (head ++ (storeLe 4 (b * 8 + 8 + mid.length) ++ storeLe 4 nslots ++ (mid ++
        ((build slotFree (slotStart nslots) nslots (0, 0)
          (items.filter fun x => x.1 % HTREE_NBUCKETS == b)).flatMap encodeSlot ++ rest))),
        b * 8 + 8 + mid.length + nslots * 8) := by
  have hpointer := blitSeq_middle head z (mid ++ (List.replicate (nslots * 8) 0 ++ rest))
    [storeLe 4 (b * 8 + 8 + mid.length), storeLe 4 nslots] (by simp [hz])
  have hplace : b * 8 + 8 + mid.length =
      (head ++ (storeLe 4 (b * 8 + 8 + mid.length) ++ storeLe 4 nslots ++ mid)).length := by
    simp only [List.length_append, length_storeLe]
    omega
  have hfree : (List.replicate nslots ((0, 0) : Slot)).countP (fun y => !slotFree y) = 0 := by
    rw [List.countP_replicate]
    rfl
  have htable := putItems_eq (head ++ (storeLe 4 (b * 8 + 8 + mid.length) ++ storeLe 4 nslots ++ mid)) rest
    (List.replicate nslots (0, 0)) b fuel items hitems
    (by
      intro y hy
      rw [List.eq_of_mem_replicate hy]
      decide)
    (by simpa using hlen) (by simpa using hfuel) (by rw [hfree, List.length_replicate]; omega)
  rw [encode_free, List.length_replicate, ← hplace] at htable
  rw [hhead] at hpointer
  unfold putTable
  rw [hpointer]
  simp only [List.flatten_cons, List.flatten_nil, List.append_nil, Option.bind_eq_bind, Option.bind_some]
  simp only [List.append_assoc] at htable ⊢
  rw [htable]
  rfl

/-! ## The whole buffer -/

section
variable (dir : Dir)

/-- The hashes and offsets of all entries. -/
def htreeItems : List Slot :=
  (recOffsets HTREE_HEADER_LEN dir).map fun eo => (djbHash eo.1.name.bytes, eo.2 % 2 ^ 32)

theorem map_fst_recOffsets (pos : Nat) : (recOffsets pos dir).map Prod.fst = dir := by
  induction dir generalizing pos with
  | nil => rfl
  | cons e es ih => rw [recOffsets, List.map_cons, ih]

theorem zip_items : (dir.map fun e => djbHash e.name.bytes).zip
    ((recOffsets HTREE_HEADER_LEN dir).map fun eo => eo.2 % 2 ^ 32) = htreeItems dir := by
  have hzip : ((recOffsets HTREE_HEADER_LEN dir).map fun eo => djbHash eo.1.name.bytes).zip
      ((recOffsets HTREE_HEADER_LEN dir).map fun eo => eo.2 % 2 ^ 32) = htreeItems dir := List.zip_map' ..
  have hfst : ((recOffsets HTREE_HEADER_LEN dir).map fun eo => djbHash eo.1.name.bytes) =
      dir.map fun e => djbHash e.name.bytes := by
    rw [← map_fst_recOffsets dir HTREE_HEADER_LEN, List.map_map, map_fst_recOffsets]
    rfl
  rw [hfst] at hzip
  exact hzip

theorem filter_items (b : Nat) : ((htreeItems dir).filter fun x => x.1 % HTREE_NBUCKETS == b) = bucketItems dir b := by
  unfold htreeItems bucketItems
  rw [List.filter_map]
  rfl

theorem tableNslots_eq (b : Nat) : tableNslots dir b = tableSlots dir b := by
  have hcount : bucketCount dir b = (bucketItems dir b).length := by
    unfold bucketCount bucketItems
    rw [List.length_map, ← List.countP_eq_length_filter]
    conv_lhs => rw [← map_fst_recOffsets dir HTREE_HEADER_LEN, List.countP_map]
    rfl
  unfold tableNslots tableSlots
  rw [hcount]

theorem htreeTotal_eq : htreeTotal dir = (htreeBuild dir).length := by
  have hlast := tablePos_last dir
  have hbody := length_htreeBody dir
  have hrecords : (htreeRecords dir).length =
    (dir.map fun e => 8 + e.name.bytes.length + HTREE_ENTRY_DATA_LEN).sum := by
    unfold htreeRecords
    rw [List.length_flatten, List.map_map]
    refine congrArg List.sum (List.map_congr_left fun e _ => ?_)
    show (record e).length = _
    rw [length_record]
    unfold HTREE_ENTRY_DATA_LEN
    omega
  have htables : ((List.range HTREE_NBUCKETS).map fun b => tableNslots dir b * 8) =
      (List.range HTREE_NBUCKETS).map fun b => tableSlots dir b * 8 :=
    List.map_congr_left fun b _ => by rw [tableNslots_eq]
  unfold tablePos at hlast
  unfold htreeTotal
  rw [length_htreeBuild, ← hrecords, htables]
  have h256 : HTREE_NBUCKETS = 256 := rfl
  have h8 : HTREE_FOOTER_LEN = 8 := rfl
  rw [h256] at *
  omega

/-- The buffer when the tables before bucket `k` are in it. -/
def halfBuilt (k : Nat) : Bytes :=
  (List.range k).flatMap (tablePointer dir) ++ (List.replicate ((HTREE_NBUCKETS - k) * 8) 0 ++ (htreeRecords dir ++
    (((List.range k).map (tableBytes dir)).flatten ++
      List.replicate ((htreeBody dir).length - tablePos dir k + HTREE_FOOTER_LEN) 0)))

variable (hlen : (htreeBuild dir).length < 2 ^ 32)
include hlen

/-- An item is none of the free slots, and its offset is stored whole. -/
theorem htreeItems_used : ∀ x ∈ htreeItems dir, slotFree x = false ∧ x.2 < 2 ^ 32 := by
  intro x hx
  have hmem : x ∈ bucketItems dir (x.1 % HTREE_NBUCKETS) := by
    rw [← filter_items]
    exact List.mem_filter.mpr ⟨hx, by simp⟩
  refine ⟨slotFree_item dir hlen _ x hmem, ?_⟩
  obtain ⟨eo, -, rfl⟩ := List.mem_map.mp hx
  exact Nat.mod_lt _ (by decide)

/-- **One bucket more.** -/
theorem putTable_halfBuilt (fuel k : Nat) (hk : k < 256) (hfuel : tableSlots dir k ≤ fuel) :
    putTable fuel (tableNslots dir k) (htreeItems dir) k (halfBuilt dir k) (tablePos dir k) =
      some (halfBuilt dir (k + 1), tablePos dir (k + 1)) := by
  have hbody := length_htreeBuild dir
  have hbody' := length_htreeBody dir
  have hin := (slice_table dir k hk).2
  have hsucc := tablePos_succ dir k
  have hpos := tablePos_eq dir k (by omega)
  have htaken : ((List.range HTREE_NBUCKETS).map (tableBytes dir)).take k = (List.range k).map (tableBytes dir) := by
    rw [← List.map_take, List.take_range, Nat.min_eq_left (by unfold HTREE_NBUCKETS; omega)]
  have hhead : ((List.range k).flatMap (tablePointer dir)).length = k * 8 := by
    rw [length_flatMap_const _ _ 8 (fun b _ => length_tablePointer dir b), List.length_range]
  have hmid : tablePos dir k = k * 8 + 8 + (List.replicate ((HTREE_NBUCKETS - (k + 1)) * 8) 0 ++
      (htreeRecords dir ++ ((List.range k).map (tableBytes dir)).flatten)).length := by
    unfold offsetOf at hpos
    rw [htaken] at hpos
    rw [hpos]
    simp only [List.length_append, List.length_replicate, List.length_flatten]
    unfold HTREE_NBUCKETS
    omega
  have hz : List.replicate ((HTREE_NBUCKETS - k) * 8) (0 : UInt8) =
      List.replicate 8 0 ++ List.replicate ((HTREE_NBUCKETS - (k + 1)) * 8) 0 := by
    rw [← List.replicate_add]
    congr 1
    unfold HTREE_NBUCKETS
    omega
  have hrest : List.replicate ((htreeBody dir).length - tablePos dir k + HTREE_FOOTER_LEN) (0 : UInt8) =
      List.replicate (tableSlots dir k * 8) 0 ++
        List.replicate ((htreeBody dir).length - tablePos dir (k + 1) + HTREE_FOOTER_LEN) 0 := by
    rw [← List.replicate_add]
    congr 1
    omega
  have hstep := putTable_eq ((List.range k).flatMap (tablePointer dir)) (List.replicate 8 0)
    (List.replicate ((HTREE_NBUCKETS - (k + 1)) * 8) 0 ++
      (htreeRecords dir ++ ((List.range k).map (tableBytes dir)).flatten))
    (List.replicate ((htreeBody dir).length - tablePos dir (k + 1) + HTREE_FOOTER_LEN) 0) k fuel (tableSlots dir k)
    (htreeItems dir) (htreeItems_used dir hlen) hhead (List.length_replicate ..) (by omega) hfuel
    (by rw [filter_items]; unfold tableSlots; omega)
  rw [← hmid, filter_items] at hstep
  rw [tableNslots_eq, hsucc]
  unfold halfBuilt
  rw [hz, hrest]
  simp only [List.append_assoc] at hstep ⊢
  rw [hstep, List.range_succ, List.flatMap_append, List.map_append, List.flatten_append, hsucc]
  simp only [List.flatMap_cons, List.flatMap_nil, List.map_cons, List.map_nil, List.flatten_cons, List.flatten_nil,
    List.append_nil, List.append_assoc]
  rfl

/-- **All buckets.** -/
theorem putTables_eq (fuel : Nat) (hfuel : dir.length * 2 ≤ fuel) :
    (List.range HTREE_NBUCKETS).foldlM
      (fun done b => putTable fuel (tableNslots dir b) (htreeItems dir) b done.1 done.2)
      (halfBuilt dir 0, tablePos dir 0) = some (halfBuilt dir HTREE_NBUCKETS, tablePos dir HTREE_NBUCKETS) := by
  have hslots : ∀ b, tableSlots dir b ≤ fuel := by
    intro b
    have hle := List.countP_le_length (p := fun e : Entry => bucketOf e.name == b) (l := dir)
    rw [← tableNslots_eq]
    unfold tableNslots bucketCount
    omega
  have hloop : ∀ k, k ≤ 256 → (List.range k).foldlM
      (fun done b => putTable fuel (tableNslots dir b) (htreeItems dir) b done.1 done.2)
      (halfBuilt dir 0, tablePos dir 0) = some (halfBuilt dir k, tablePos dir k) := by
    intro k
    induction k with
    | zero => exact fun _ => rfl
    | succ k ih =>
      intro hk
      have hstep := putTable_halfBuilt dir hlen fuel k (by omega) (hslots k)
      rw [List.range_succ, List.foldlM_append, ih (by omega), Option.bind_eq_bind, Option.bind_some, List.foldlM_cons,
        hstep]
      rfl
  exact hloop 256 (Nat.le_refl _)

omit hlen in
theorem halfBuilt_full : halfBuilt dir HTREE_NBUCKETS = htreeBody dir ++ List.replicate 8 0 := by
  have hlast := tablePos_last dir
  unfold halfBuilt
  rw [show tablePos dir HTREE_NBUCKETS = (htreeBody dir).length from hlast, Nat.sub_self, Nat.sub_self]
  unfold htreeBody htreeHeader htreeTables HTREE_FOOTER_LEN
  simp

omit hlen in
theorem htreeBuffer_zero : List.replicate (htreeTotal dir) (0 : UInt8) =
    List.replicate HTREE_HEADER_LEN 0 ++ (List.replicate (htreeRecords dir).length 0 ++
      List.replicate ((htreeBody dir).length - tablePos dir 0 + HTREE_FOOTER_LEN) 0) := by
  have hbody := length_htreeBuild dir
  have hbody' := length_htreeBody dir
  have hzero := tablePos_zero dir
  have h2048 : HTREE_HEADER_LEN = 2048 := rfl
  have h8 : HTREE_FOOTER_LEN = 8 := rfl
  rw [htreeTotal_eq, ← List.replicate_add, ← List.replicate_add]
  refine congrArg (fun n => List.replicate n 0) ?_
  omega

/-- **The builder writes the encoding** into its buffer, and nowhere else. -/
theorem htreeBuildInPlace_eq (fuel : Nat) (hfuel : dir.length * 2 ≤ fuel) :
    htreeBuildInPlace fuel dir = some (htreeBuild dir) := by
  have hrecords := putRecords_eq (List.replicate HTREE_HEADER_LEN 0) (List.replicate (htreeRecords dir).length 0)
    (List.replicate ((htreeBody dir).length - tablePos dir 0 + HTREE_FOOTER_LEN) 0) dir (by simp)
  have hhalf : List.replicate HTREE_HEADER_LEN 0 ++ (htreeRecords dir ++
      List.replicate ((htreeBody dir).length - tablePos dir 0 + HTREE_FOOTER_LEN) 0) = halfBuilt dir 0 := rfl
  have htables := putTables_eq dir hlen fuel hfuel
  have hlast : tablePos dir HTREE_NBUCKETS = (htreeBody dir).length := tablePos_last dir
  have hfooter := blitSeq_middle (htreeBody dir) (List.replicate 8 0) []
    [storeLe 4 (adler32 (htreeBody dir)), HTREE_MAGIC] (by simp [HTREE_MAGIC])
  rw [List.length_replicate, hhalf, ← htreeBuffer_zero] at hrecords
  rw [halfBuilt_full, hlast] at htables
  rw [List.append_nil] at hfooter
  unfold htreeBuildInPlace
  dsimp only
  rw [hrecords]
  simp only [Option.bind_eq_bind, Option.bind_some, zip_items]
  rw [show HTREE_HEADER_LEN + (htreeRecords dir).length = tablePos dir 0 from rfl, htables]
  simp only [Option.bind_some]
  rw [slice_front _ _ _ rfl, hfooter]
  simp [htreeBuild]

end

/-! ## The tables -/

/-- Where the header says bucket `b`'s table is. -/
def headerPos (buf : Bytes) (b : Nat) : Nat := loadLe32 buf (b * 8)

/-- How many slots it says it has. -/
def headerSlots (buf : Bytes) (b : Nat) : Nat := loadLe32 buf (b * 8 + 4)

/-- Slot `p` of bucket `b`'s table. -/
def readSlot (buf : Bytes) (b p : Nat) : Slot :=
  (loadLe32 buf (headerPos buf b + p * 8), loadLe32 buf (headerPos buf b + p * 8 + 4))

/-- What is said of a bucket's table, for entries with their records' places. -/
structure TableSound (dir : Dir) (offsets : List Nat) (buf : Bytes) (b : Nat) : Prop where
  /-- It has two slots for each entry. -/
  slots : headerSlots buf b = 2 * bucketCount dir b
  /-- Its slots in use are the entries' hashes and places, each once. -/
  exact : (((List.range (headerSlots buf b)).map (readSlot buf b)).filter fun s => !slotFree s).Perm
    (((dir.zip offsets).filter fun eo => bucketOf eo.1.name == b).map fun eo => (djbHash eo.1.name.bytes, eo.2))
  /-- There is no free slot between an entry's home and the slot it is in. -/
  reached : ∀ p < headerSlots buf b, slotFree (readSlot buf b p) = false →
    ∃ d < headerSlots buf b,
      (slotStart (headerSlots buf b) (readSlot buf b p) + d) % headerSlots buf b = p ∧
      ∀ j < d, slotFree (readSlot buf b
        ((slotStart (headerSlots buf b) (readSlot buf b p) + j) % headerSlots buf b)) = false

/-- What is said of a buffer for a list of entries. -/
structure TablesSound (dir : Dir) (offsets : List Nat) (buf : Bytes) : Prop where
  length : offsets.length = dir.length
  /-- A place is never zero, and the entry's record is there. -/
  records : ∀ (i : Nat) e off, dir[i]? = some e → offsets[i]? = some off →
    off ≠ 0 ∧ slice buf off (record e).length = record e
  tables : ∀ b < HTREE_NBUCKETS, TableSound dir offsets buf b
  /-- The tables follow on each other. -/
  adjacent : ∀ b, b + 1 < HTREE_NBUCKETS → headerPos buf (b + 1) = headerPos buf b + headerSlots buf b * 8
  /-- The footer follows on the last, and nothing follows on it. -/
  footer : ∃ last, last = headerPos buf (HTREE_NBUCKETS - 1) + headerSlots buf (HTREE_NBUCKETS - 1) * 8 ∧
    buf.length = last + HTREE_FOOTER_LEN ∧ buf.drop last = storeLe 4 (adler32 (buf.take last)) ++ HTREE_MAGIC

section
variable (dir : Dir) (hlen : (htreeBuild dir).length < 2 ^ 32)

/-- `rec_offsets` -/
def htreeOffsets : List Nat := (recOffsets HTREE_HEADER_LEN dir).map fun eo => eo.2 % 2 ^ 32

theorem zip_offsets : dir.zip (htreeOffsets dir) =
    (recOffsets HTREE_HEADER_LEN dir).map fun eo => (eo.1, eo.2 % 2 ^ 32) := by
  have hzip : ((recOffsets HTREE_HEADER_LEN dir).map Prod.fst).zip (htreeOffsets dir) =
      (recOffsets HTREE_HEADER_LEN dir).map fun eo => (eo.1, eo.2 % 2 ^ 32) := List.zip_map' ..
  rw [map_fst_recOffsets] at hzip
  exact hzip

theorem bucketItems_zip (b : Nat) : bucketItems dir b =
    ((dir.zip (htreeOffsets dir)).filter fun eo => bucketOf eo.1.name == b).map
      fun eo => (djbHash eo.1.name.bytes, eo.2) := by
  rw [zip_offsets, List.filter_map, List.map_map]
  rfl

include hlen

/-- The slots of a table are those the builder made. -/
theorem readSlot_build (b : Nat) (hb : b < 256) (p : Nat) (hp : p < (bucketTable dir b).length) :
    readSlot (htreeBuild dir) b p = (bucketTable dir b)[p] := by
  obtain ⟨hpos, -⟩ := loadLe32_pointer dir hlen b hb
  obtain ⟨hslot, -⟩ := slice_slot dir b hb p hp
  have hsmall : (bucketTable dir b)[p].1 < 2 ^ 32 ∧ (bucketTable dir b)[p].2 < 2 ^ 32 := by
    rcases mem_build _ _ _ _ _ _ (List.getElem_mem hp) with h | h
    · rw [h]
      decide
    · obtain ⟨e, off, -, -, hs⟩ := (mem_bucketItems dir b _).mp h
      rw [hs]
      exact ⟨djbHash_lt _, Nat.mod_lt _ (by decide)⟩
  have hfirst : loadLe32 (htreeBuild dir) (tablePos dir b + p * 8) = (bucketTable dir b)[p].1 := by
    have h0 := loadLe32_slice _ _ _ _ 0 hslot (by omega)
    rw [Nat.add_zero] at h0
    rw [h0]
    exact loadLe32_storeLe _ hsmall.1 _
  have hsecond : loadLe32 (htreeBuild dir) (tablePos dir b + p * 8 + 4) = (bucketTable dir b)[p].2 := by
    rw [loadLe32_slice _ _ _ _ 4 hslot (by omega), ← List.append_nil (encodeSlot _), loadLe32_encodeSlot,
      Nat.mod_eq_of_lt hsmall.2]
  unfold readSlot headerPos
  rw [hpos, hfirst, hsecond]

theorem tableSound_build (b : Nat) (hb : b < 256) : TableSound dir (htreeOffsets dir) (htreeBuild dir) b := by
  have hslots : headerSlots (htreeBuild dir) b = tableSlots dir b := (loadLe32_pointer dir hlen b hb).2
  have hlength := length_bucketTable dir b
  obtain ⟨hreach, hperm⟩ := build_spec slotFree (slotStart (tableSlots dir b)) (tableSlots dir b) (0, 0) rfl
    (bucketItems dir b) (slotFree_item dir hlen b) (by unfold tableSlots; omega)
  have hread : (List.range (tableSlots dir b)).map (readSlot (htreeBuild dir) b) = bucketTable dir b := by
    apply List.ext_getElem
    · rw [List.length_map, List.length_range, hlength]
    · intro p h1 h2
      rw [List.getElem_map, List.getElem_range, readSlot_build dir hlen b hb p h2]
  constructor
  case slots =>
    rw [hslots, ← tableNslots_eq, Nat.mul_comm]
    rfl
  case exact =>
    rw [hslots, hread, ← bucketItems_zip]
    exact hperm
  case reached =>
    intro p hp hused
    rw [hslots] at hp ⊢
    have hpt : p < (bucketTable dir b).length := by omega
    rw [readSlot_build dir hlen b hb p hpt] at hused ⊢
    obtain ⟨d, hd, hstep, hbefore⟩ := hreach p hpt hused
    rw [length_build] at hd hstep
    refine ⟨d, hd, hstep, fun j hj => ?_⟩
    have hq : (slotStart (tableSlots dir b) (bucketTable dir b)[p] + j) % tableSlots dir b <
        (bucketTable dir b).length := by
      rw [hlength]
      exact Nat.mod_lt _ (by omega)
    rw [readSlot_build dir hlen b hb _ hq]
    apply hbefore j hj
    unfold slotAt
    rw [length_build]
    exact List.getElem?_eq_getElem hq

theorem tablesSound_build : TablesSound dir (htreeOffsets dir) (htreeBuild dir) := by
  have hbody := length_htreeBuild dir
  have hbody' := length_htreeBody dir
  constructor
  case length =>
    unfold htreeOffsets
    rw [List.length_map, ← List.length_map (f := Prod.fst), map_fst_recOffsets]
  case records =>
    intro i e off he hoff
    unfold htreeOffsets at hoff
    rw [← map_fst_recOffsets dir HTREE_HEADER_LEN, List.getElem?_map] at he
    rw [List.getElem?_map] at hoff
    obtain ⟨⟨e', off'⟩, hat, rfl⟩ := Option.map_eq_some_iff.mp he
    rw [hat] at hoff
    obtain rfl := Option.some.inj hoff
    obtain ⟨hlow, hhigh, hslice⟩ := slice_record dir e' off' (List.mem_of_getElem? hat)
    have hwhole : off' % 2 ^ 32 = off' := Nat.mod_eq_of_lt (by omega)
    show off' % 2 ^ 32 ≠ 0 ∧ slice _ (off' % 2 ^ 32) _ = _
    rw [hwhole]
    exact ⟨by omega, hslice⟩
  case tables => exact fun b hb => tableSound_build dir hlen b hb
  case adjacent =>
    intro b hb
    have h256 : HTREE_NBUCKETS = 256 := rfl
    have h1 := (loadLe32_pointer dir hlen (b + 1) hb).1
    obtain ⟨h2, h3⟩ := loadLe32_pointer dir hlen b (by omega)
    unfold headerPos headerSlots
    rw [h1, h2, h3, tablePos_succ]
  case footer =>
    obtain ⟨hpos, hslots⟩ := loadLe32_pointer dir hlen 255 (by omega)
    have hlast : tablePos dir 255 + tableSlots dir 255 * 8 = (htreeBody dir).length := by
      rw [← tablePos_succ]
      exact tablePos_last dir
    refine ⟨(htreeBody dir).length, ?_, ?_, ?_⟩
    · rw [← hlast, ← hpos, ← hslots]
      rfl
    · rw [hbody, hbody']
      rfl
    · unfold htreeBuild
      rw [List.drop_left, List.take_left]

end

/-- **The tables of an htree are sound**: the builder ends in its buffer, with what a lookup may rely on in it. -/
theorem htree_tables_sound (dir : Dir) (hlen : htreeTotal dir < 2 ^ 32) :
    ∃ buf offsets, buf.length = htreeTotal dir ∧ TablesSound dir offsets buf ∧
      ∀ fuel, dir.length * 2 ≤ fuel → htreeBuildInPlace fuel dir = some buf := by
  rw [htreeTotal_eq] at hlen ⊢
  exact ⟨htreeBuild dir, htreeOffsets dir, rfl, tablesSound_build dir hlen,
    fun fuel hfuel => htreeBuildInPlace_eq dir hlen fuel hfuel⟩

/-- The tables of a directory of one file. -/
theorem htree_tables_sound_fileA : ∃ buf offsets, buf.length = htreeTotal [fileA] ∧
    TablesSound [fileA] offsets buf ∧ ∀ fuel, 2 ≤ fuel → htreeBuildInPlace fuel [fileA] = some buf :=
  htree_tables_sound [fileA] (by rw [htreeTotal_eq, length_htreeBuild]; decide +kernel)

end Smolvfs
