import Smolvfs.Reading

/-!
# The packfile a writer makes

`packImage es`: the blocks (data region, trailer) of the emitted objects, the
index and the footer, as `pack_create` writes them.  An image opens
(`casPackOpen_image`); when its objects are in strictly ascending order, the
search finds exactly them (`findEntry_image`), and a lookup decodes the region
that was emitted (`casPackLookup_image`).
-/

namespace Smolvfs

open Octets Search

/-- One object as it goes into a pack: address, data region, trailer, and the length in its header. -/
structure Emitted where
  bin : Bytes
  region : Bytes
  trailer : Bytes
  contentLen : Nat
  deriving DecidableEq

def Emitted.block (e : Emitted) : Bytes := e.region ++ e.trailer

/-- `stored_size`: left zero when the region has the plaintext's length. -/
def Emitted.storedSize (e : Emitted) : Nat := if e.region.length = e.contentLen then 0 else e.region.length

/-- `struct cas_pack_index_entry` -/
def packIndexEntry (e : Emitted) (trailerOff : Nat) : Bytes :=
  e.bin ++ (storeLe 8 trailerOff ++ (storeLe 8 e.storedSize ++ List.replicate 16 0))

/-- The index of objects whose blocks start at `offset`. -/
def packIndex : Nat → List Emitted → Bytes
  | _, [] => []
  | offset, e :: es =>
    packIndexEntry e (offset + e.region.length) ++ packIndex (offset + e.block.length) es

/-- What the footer's checksum is taken of. -/
def packChecked (index : Bytes) (count : Nat) : Bytes :=
  index ++ (CAS_PACK_FOOTER_MAGIC_V1 ++ storeLe 8 count)

/-- `struct cas_pack_footer` -/
def packFooter (index : Bytes) (count : Nat) : Bytes :=
  CAS_PACK_FOOTER_MAGIC_V1 ++ (storeLe 8 count ++
    (casDigest (packChecked index count) ++ List.replicate 16 0))

def packBody (es : List Emitted) : Bytes := (es.map Emitted.block).flatten

def packImage (es : List Emitted) : Bytes :=
  packBody es ++ (packIndex 0 es ++ packFooter (packIndex 0 es) es.length)

/-- Addresses and trailers have their widths, and the file a size a file can have. -/
structure PackedOk (es : List Emitted) : Prop where
  bins : ∀ e ∈ es, e.bin.length = 32
  trailers : ∀ e ∈ es, e.trailer.length = 64
  size : (packImage es).length < 2 ^ 63

/-! ## Sizes -/

theorem length_packIndexEntry (e : Emitted) (off : Nat) (h : e.bin.length = 32) :
    (packIndexEntry e off).length = 64 := by
  simp [packIndexEntry, h]

theorem length_packIndex (es : List Emitted) (hb : ∀ e ∈ es, e.bin.length = 32) (off : Nat) :
    (packIndex off es).length = es.length * 64 := by
  induction es generalizing off with
  | nil => simp [packIndex]
  | cons e es ih =>
    rw [packIndex, List.length_append, length_packIndexEntry e _ (hb e (by simp)),
      ih (fun x hx => hb x (by simp [hx]))]
    simp only [List.length_cons]
    omega

theorem length_packFooter (index : Bytes) (count : Nat) : (packFooter index count).length = 64 := by
  simp [packFooter, length_casDigest, CAS_PACK_FOOTER_MAGIC_V1, CAS_HASH_LEN]

theorem length_packImage (es : List Emitted) (hb : ∀ e ∈ es, e.bin.length = 32) :
    (packImage es).length = (packBody es).length + (es.length * 64 + 64) := by
  simp only [packImage, List.length_append, length_packIndex es hb, length_packFooter]

section
variable {es : List Emitted} (h : PackedOk es)
include h

theorem PackedOk.count_lt : es.length * 64 + 64 < 2 ^ 63 := by
  have := h.size
  rw [length_packImage es h.bins] at this
  omega

theorem PackedOk.tailSize : packTailSize es.length = es.length * 64 + 64 := by
  have := h.count_lt
  unfold packTailSize packIndexSize
  simp only [CAS_PACK_BLOCK]
  omega

theorem PackedOk.tail_le : packTailSize es.length ≤ (packImage es).length := by
  rw [h.tailSize, length_packImage es h.bins]
  omega

end

/-- The handle on an image. -/
def packOf (es : List Emitted) (h : PackedOk es) : Pack := ⟨packImage es, es.length, h.tail_le⟩

/-! ## Opening -/

theorem casPackOpen_image (es : List Emitted) (h : PackedOk es) :
    casPackOpen false (some (packImage es)) = some (packOf es h) := by
  have hlen := length_packImage es h.bins
  have hcount := h.count_lt
  have htail := h.tailSize
  have hix := length_packIndex es h.bins 0
  have hft : slice (packImage es) ((packImage es).length - CAS_PACK_BLOCK) CAS_PACK_BLOCK =
      packFooter (packIndex 0 es) es.length := by
    rw [hlen]
    unfold packImage
    rw [← List.append_assoc, slice_append_right]
    · rw [List.length_append, hix]
      have h0 : (packBody es).length + (es.length * 64 + 64) - CAS_PACK_BLOCK -
          ((packBody es).length + es.length * 64) = 0 := by
        unfold CAS_PACK_BLOCK
        omega
      rw [h0]
      exact slice_all _ _ (length_packFooter _ _).symm
    · rw [List.length_append, hix]
      unfold CAS_PACK_BLOCK
      omega
  have hmagic : slice (packFooter (packIndex 0 es) es.length) 0 CAS_PACK_MAGIC_LEN =
      CAS_PACK_FOOTER_MAGIC_V1 := slice_front _ _ _ rfl
  have hcnt : loadLe (slice (packFooter (packIndex 0 es) es.length) 8 8) = es.length := by
    have h8 : slice (packFooter (packIndex 0 es) es.length) 8 8 = storeLe 8 es.length := by
      unfold packFooter
      rw [slice_append_of_eq _ _ 8 0 8 rfl]
      exact slice_front _ _ _ (length_storeLe _ _).symm
    rw [h8, loadLe_storeLe_of_lt _ _ (by omega)]
  have hsum : slice (packFooter (packIndex 0 es) es.length) 16 CAS_HASH_LEN =
      casDigest (packChecked (packIndex 0 es) es.length) := by
    unfold packFooter
    rw [slice_append_of_eq _ _ 16 8 _ rfl, slice_append_of_eq _ _ 8 0 _ (by simp)]
    exact slice_front _ _ _ (length_casDigest _).symm
  have hchk : slice (packImage es) ((packImage es).length - packTailSize es.length)
      ((packIndexSize es.length + 16) % 2 ^ 64) = packChecked (packIndex 0 es) es.length := by
    have h1 : (packImage es).length - packTailSize es.length = (packBody es).length + 0 := by
      rw [hlen, htail]
      omega
    have h2 : (packIndexSize es.length + 16) % 2 ^ 64 = es.length * 64 + 16 := by
      unfold packIndexSize CAS_PACK_BLOCK
      omega
    rw [h1, h2]
    unfold packImage
    rw [slice_append_add]
    have h3 : packIndex 0 es ++ packFooter (packIndex 0 es) es.length =
        packChecked (packIndex 0 es) es.length ++
          (casDigest (packChecked (packIndex 0 es) es.length) ++ List.replicate 16 0) := by
      simp [packFooter, packChecked]
    rw [h3]
    apply slice_front
    rw [packChecked, List.length_append, hix]
    simp [CAS_PACK_FOOTER_MAGIC_V1]
  unfold casPackOpen
  have hge : ¬ (packImage es).length < CAS_PACK_BLOCK := by
    rw [hlen]
    unfold CAS_PACK_BLOCK
    omega
  simp only [Bool.false_eq_true, if_false, if_neg hge, hft, hmagic, ne_eq, not_true_eq_false, hcnt,
    hsum, hchk]
  rw [dif_neg (by have := h.tail_le; omega)]
  rfl

/-! ## Entries -/

theorem slice_packIndex (es : List Emitted) (hb : ∀ e ∈ es, e.bin.length = 32) (off i : Nat)
    (hi : i < es.length) :
    slice (packIndex off es) (i * 64) 64 =
      packIndexEntry es[i] (off + offsetOf (es.map Emitted.block) i + es[i].region.length) := by
  induction es generalizing off i with
  | nil => simp at hi
  | cons e es ih =>
    have he := length_packIndexEntry e (off + e.region.length) (hb e (by simp))
    rw [packIndex]
    cases i with
    | zero => simpa using slice_front _ (packIndex (off + e.block.length) es) _ he.symm
    | succ i =>
      have h64 : (i + 1) * 64 = (packIndexEntry e (off + e.region.length)).length + i * 64 := by
        rw [he]
        ring
      rw [h64, slice_append_add, ih (fun x hx => hb x (by simp [hx])) _ i (by simpa using hi)]
      simp only [List.getElem_cons_succ, List.map_cons, offsetOf_cons, Nat.add_assoc]

theorem Pack.read_of_le (p : Pack) (off len : Nat) (h : off + len ≤ p.map.length) :
    p.read off len = slice p.map off len := by
  unfold Pack.read
  rw [length_slice _ _ _ h, Nat.sub_self, List.replicate_zero, List.append_nil]

/-- Where the trailer of object `i` is. -/
def trailerAt (es : List Emitted) (i : Nat) (hi : i < es.length) : Nat :=
  offsetOf (es.map Emitted.block) i + es[i].region.length

section
variable (es : List Emitted) (h : PackedOk es) (i : Nat) (hi : i < es.length)
include h

theorem trailerAt_le : trailerAt es i hi + 64 ≤ (packBody es).length := by
  have hb := offsetOf_add_le (es.map Emitted.block) i (by simpa using hi)
  have ht := h.trailers es[i] (List.getElem_mem hi)
  rw [List.getElem_map, Emitted.block, List.length_append] at hb
  unfold trailerAt packBody
  omega

theorem trailerAt_lt : trailerAt es i hi + 64 < 2 ^ 63 := by
  have h1 := trailerAt_le es h i hi
  have h2 := h.size
  rw [length_packImage es h.bins] at h2
  omega

/-- A field of entry `i`, read from the image. -/
theorem packOf_read_entry (o n : Nat) (ho : o + n ≤ 64) :
    (packOf es h).read ((packOf es h).entry i + o) n =
      slice (packIndexEntry es[i] (trailerAt es i hi)) o n := by
  have hcount := h.count_lt
  have hlen := length_packImage es h.bins
  have hentry : (packOf es h).entry i = (packBody es).length + i * 64 := by
    unfold Pack.entry Pack.index packOf
    simp only [h.tailSize, hlen, CAS_PACK_BLOCK]
    omega
  rw [hentry, Pack.read_of_le]
  · have hix := length_packIndex es h.bins 0
    unfold packOf packImage
    simp only []
    rw [Nat.add_assoc, slice_append_add, slice_append_left _ _ _ _ (by omega)]
    have hs := slice_packIndex es h.bins 0 i hi
    rw [Nat.zero_add] at hs
    rw [trailerAt, ← hs, slice_slice _ _ _ _ _ ho]
  · show _ ≤ (packImage es).length
    rw [hlen]
    omega

theorem packOf_entryHash : (packOf es h).entryHash i = es[i].bin := by
  have hb := h.bins es[i] (List.getElem_mem hi)
  unfold Pack.entryHash
  have hr := packOf_read_entry es h i hi 0 CAS_HASH_LEN (by decide)
  rw [Nat.add_zero] at hr
  rw [hr]
  exact slice_front _ _ _ hb.symm

theorem packOf_entryOffset : (packOf es h).entryOffset i = trailerAt es i hi := by
  have hb := h.bins es[i] (List.getElem_mem hi)
  have hlt := trailerAt_lt es h i hi
  unfold Pack.entryOffset
  rw [packOf_read_entry es h i hi 32 8 (by decide), packIndexEntry,
    slice_append_of_eq _ _ 32 0 8 (by omega), slice_front _ _ _ (by simp),
    loadLe_storeLe_of_lt _ _ (by omega)]

theorem storedSize_lt : es[i].storedSize < 2 ^ 63 := by
  have hlt := trailerAt_lt es h i hi
  unfold trailerAt at hlt
  unfold Emitted.storedSize
  split <;> omega

theorem packOf_entryStored : (packOf es h).entryStored i = es[i].storedSize := by
  have hb := h.bins es[i] (List.getElem_mem hi)
  have hlt := storedSize_lt es h i hi
  unfold Pack.entryStored
  rw [packOf_read_entry es h i hi 40 8 (by decide), packIndexEntry,
    slice_append_of_eq _ _ 40 8 8 (by omega), slice_append_of_eq _ _ 8 0 8 (by simp),
    slice_front _ _ _ (by simp), loadLe_storeLe_of_lt _ _ (by omega)]

/-- The trailer of object `i`, read from the image. -/
theorem packOf_read_trailer :
    (packOf es h).read (trailerAt es i hi) CAS_PACK_BLOCK = es[i].trailer := by
  have hle := trailerAt_le es h i hi
  have hlen := length_packImage es h.bins
  have ht := h.trailers es[i] (List.getElem_mem hi)
  have hb := slice_flatten (es.map Emitted.block) i (by simpa using hi)
  simp only [List.getElem_map] at hb
  rw [Pack.read_of_le]
  · unfold packOf packImage
    simp only []
    rw [slice_append_left _ _ _ _ (by simpa [CAS_PACK_BLOCK] using hle)]
    have hs : slice es[i].block es[i].region.length 64 = es[i].trailer := by
      unfold Emitted.block
      rw [show es[i].region.length = es[i].region.length + 0 from rfl, slice_append_add]
      exact slice_all _ _ ht.symm
    rw [← hs, ← hb]
    rw [slice_slice _ _ _ _ _ (by simp [Emitted.block, ht])]
    rfl
  · show _ ≤ (packImage es).length
    rw [hlen]
    unfold CAS_PACK_BLOCK
    omega

/-- The region of object `i`, read from the image. -/
theorem packOf_read_region :
    (packOf es h).read (trailerAt es i hi - es[i].region.length) es[i].region.length = es[i].region := by
  have hle := trailerAt_le es h i hi
  have hlen := length_packImage es h.bins
  have hb := slice_flatten (es.map Emitted.block) i (by simpa using hi)
  simp only [List.getElem_map] at hb
  have hoff : trailerAt es i hi - es[i].region.length = offsetOf (es.map Emitted.block) i := by
    unfold trailerAt
    omega
  have hle' : offsetOf (es.map Emitted.block) i + es[i].region.length ≤ (packBody es).length := by
    unfold trailerAt at hle
    omega
  rw [hoff, Pack.read_of_le]
  · unfold packOf packImage
    simp only []
    rw [slice_append_left _ _ _ _ hle']
    have hs : slice es[i].block 0 es[i].region.length = es[i].region := slice_front _ _ _ rfl
    conv_rhs => rw [← hs, ← hb]
    rw [slice_slice _ _ _ _ _ (by simp [Emitted.block]), Nat.add_zero]
    rfl
  · show _ ≤ (packImage es).length
    rw [hlen]
    omega

end

/-! ## Searching -/

/-- The addresses are in strictly ascending order. -/
def BinsSorted (es : List Emitted) : Prop := (es.map Emitted.bin).Pairwise (· < ·)

theorem casPackHashes_packOf (es : List Emitted) (h : PackedOk es) :
    casPackHashes (packOf es h) = es.map fun e => toHex e.bin := by
  unfold casPackHashes
  apply List.ext_getElem
  · simp [packOf]
  · intro i h1 h2
    simp only [List.getElem_map, List.getElem_range]
    rw [packOf_entryHash es h i (by simpa using h2)]

section
variable (es : List Emitted) (h : PackedOk es) (hs : BinsSorted es)
include hs

theorem BinsSorted.getElem_lt (i j : Nat) (hij : i < j) (hj : j < es.length) :
    es[i].bin < es[j].bin := by
  have := List.pairwise_iff_getElem.mp hs i j (by simp; omega) (by simpa using hj) hij
  simpa using this

theorem BinsSorted.inj (i j : Nat) (hi : i < es.length) (hj : j < es.length)
    (heq : es[i].bin = es[j].bin) : i = j := by
  rcases Nat.lt_trichotomy i j with hlt | heq' | hgt
  · have := hs.getElem_lt es i j hlt hj
    rw [heq] at this
    exact absurd this (List.lt_irrefl _)
  · exact heq'
  · have := hs.getElem_lt es j i hgt hi
    rw [heq] at this
    exact absurd this (List.lt_irrefl _)

include h in
theorem findEntry_image (bin : Bytes) (hb : bin.length = 32) (i : Nat) (hi : i < es.length)
    (heq : es[i].bin = bin) : findEntry (packOf es h) bin = some i := by
  have hcmp : ∀ k (hk : k < es.length), memcmp ((packOf es h).entryHash k) bin = lexcmp es[k].bin bin := by
    intro k hk
    rw [packOf_entryHash es h k hk, memcmp_eq_lexcmp]
    rw [hb, h.bins es[k] (List.getElem_mem hk)]
  have hasc : Ascending (fun k => memcmp ((packOf es h).entryHash k) bin) es.length := by
    intro a b hab hbl
    simp only [hcmp a (by omega), hcmp b hbl, lexcmp_eq_lt, lexcmp_eq_gt]
    have hlt := hs.getElem_lt es a b hab hbl
    rcases hc : lexcmp es[a].bin bin with _ | _ | _
    · exact .inl ((lexcmp_eq_lt _ _).mp hc)
    · rw [(lexcmp_eq_eq _ _).mp hc] at hlt
      exact .inr hlt
    · exact .inr (List.lt_trans ((lexcmp_eq_gt _ _).mp hc) hlt)
  have hk : memcmp ((packOf es h).entryHash i) bin = .eq := by
    rw [hcmp i hi, heq, lexcmp_self]
  obtain ⟨j, hj⟩ := bsearch_complete _ es.length hasc i hk (es.length + 1) 0 es.length (by omega)
    (Nat.zero_le i) hi (Nat.le_refl _)
  obtain ⟨-, hjl, hjeq⟩ := bsearch_sound _ _ _ _ _ hj
  rw [hcmp j hjl, lexcmp_eq_eq] at hjeq
  have : j = i := hs.inj es j i hjl hi (by rw [hjeq, heq])
  unfold findEntry
  show bsearch _ (es.length + 1) 0 es.length = some i
  rw [hj, this]

omit hs in
/-- Whatever the order, an entry that is found has the address looked for. -/
theorem findEntry_image_none (bin : Bytes) (hb : bin.length = 32) (hn : ∀ e ∈ es, e.bin ≠ bin) :
    findEntry (packOf es h) bin = none := by
  cases hf : findEntry (packOf es h) bin with
  | none => rfl
  | some j =>
    unfold findEntry at hf
    obtain ⟨-, hjl, hjeq⟩ := bsearch_sound _ _ _ _ _ hf
    have hjl' : j < es.length := hjl
    rw [packOf_entryHash es h j hjl', memcmp_eq_eq _ _ (by rw [hb, h.bins es[j] (List.getElem_mem hjl')])]
      at hjeq
    exact absurd hjeq (hn es[j] (List.getElem_mem hjl'))

end

/-! ## Looking up -/

/-- The object an emitted region and trailer decode to. -/
def emittedRead (cs : Codecs) (noBuf : Bool) (e : Emitted) : Except Status (CStr × Bytes) :=
  match trailerFramed e.trailer with
  | none => .error .err
  | some framed =>
    match packParseHeader (trailerHeader e.trailer) with
    | none => .error .err
    | some (type, contentLen) =>
      (casCodecRegionDecode cs noBuf e.region framed contentLen).map fun data => (type, data)

/-- The recorded length is the header's, and an empty region is that of an empty object. -/
def Emitted.Whole (e : Emitted) : Prop :=
  (∀ type n, packParseHeader (trailerHeader e.trailer) = some (type, n) → n = e.contentLen) ∧
    (e.region = [] → e.contentLen = 0)

/-- The region's length, as a reader works it out from the entry and the header. -/
theorem Emitted.Whole.regionSize {e : Emitted} (hw : e.Whole) :
    (if e.storedSize ≠ 0 then e.storedSize else e.contentLen) = e.region.length := by
  unfold Emitted.storedSize
  by_cases hc : e.region.length = e.contentLen
  · rw [if_pos hc]
    simp [hc]
  · rw [if_neg hc]
    by_cases h0 : e.region.length = 0
    · exact absurd (by rw [hw.2 (List.eq_nil_of_length_eq_zero h0), h0]) hc
    · rw [if_pos h0]

theorem casPackLookup_image (cs : Codecs) (noBuf : Bool) (es : List Emitted) (h : PackedOk es)
    (hs : BinsSorted es) (i : Nat) (hi : i < es.length) (hw : es[i].Whole) (hash : Bytes)
    (hb : casHexDecode hash = some es[i].bin) :
    casPackLookup cs noBuf (packOf es h) hash = emittedRead cs noBuf es[i] := by
  have hlt := trailerAt_lt es h i hi
  have hle := trailerAt_le es h i hi
  have hlen := length_packImage es h.bins
  have hfind := findEntry_image es h hs es[i].bin (h.bins es[i] (List.getElem_mem hi)) i hi rfl
  have hoff : ¬ (trailerAt es i hi + CAS_PACK_BLOCK) % 2 ^ 64 > (packOf es h).map.length := by
    show ¬ _ > (packImage es).length
    rw [hlen]
    unfold CAS_PACK_BLOCK
    omega
  have hsize := hw.regionSize
  have hreg : ¬ es[i].region.length > trailerAt es i hi := by
    unfold trailerAt
    omega
  unfold casPackLookup emittedRead
  simp only [hb, hfind, packOf_entryOffset es h i hi, if_neg hoff, packOf_read_trailer es h i hi,
    packOf_entryStored es h i hi]
  cases hf : trailerFramed es[i].trailer with
  | none => rfl
  | some framed =>
    cases hp : packParseHeader (trailerHeader es[i].trailer) with
    | none => rfl
    | some th =>
      obtain ⟨type, n⟩ := th
      obtain rfl := hw.1 type n hp
      simp only [hsize, if_neg hreg, packOf_read_region es h i hi]

end Smolvfs
