import Smolvfs.Lib.Tiling
import Smolvfs.PackContents

/-!
# Where the objects of a new pack are

A pack is read in three ways: `cas_pack_lookup` decodes an object, `pack_raw_region`
copies it forward, and a client that has only the index works out extents from the
sorted trailer offsets and asks for these ranges of the file.  `PackExact` says that
all three find, for each hash the index has, the octets that were written for it.
`pack_layout_iff` says when a pack that `pack_create` wrote is so: the walk missed no
hash, and no loose file that was copied was `Hollow`, a trailer alone that announces
octets.  The entry of such a file has stored size zero, which stands for "as the
header says".
-/

namespace Smolvfs

open Octets Search Tiling

/-! ## A client's view -/

/-- The index as a client reads it: each hash with the offset of its trailer. -/
def Pack.entries (p : Pack) : List (Bytes × Nat) :=
  (List.range p.entryCount).map fun i => (p.entryHash i, p.entryOffset i)

/-- Objects follow each other, so each one starts where the one before ended. -/
def extentsFrom : Nat → List (Bytes × Nat) → List (Bytes × Nat × Nat)
  | _, [] => []
  | start, (hash, offset) :: entries =>
    (hash, start, offset + CAS_PACK_BLOCK) :: extentsFrom (offset + CAS_PACK_BLOCK) entries

/-- The octets each object occupies: the entries sorted by offset, each from the end of the one before. -/
def Pack.extents (p : Pack) : List (Bytes × Nat × Nat) :=
  extentsFrom 0 (p.entries.insertionSort fun a b => a.2 ≤ b.2)

/-! ## Exactness -/

/-- What `cas_pack_lookup` makes of a region and its trailer. -/
def regionRead (cs : Codecs) (noBuf : Bool) (form : Bytes × Bytes) : Except Status (CStr × Bytes) :=
  emittedRead cs noBuf ⟨[], form.1, form.2, 0⟩

/-- The pack has the wanted hashes, in strictly ascending order, and every reader finds for each of them
the region and the trailer that were written for it. -/
structure PackExact (p : Pack) (wanted : Bytes → Prop) (written : Bytes → Option (Bytes × Bytes)) : Prop where
  ascending : ∀ i j, i < j → j < p.entryCount → memcmp (p.entryHash i) (p.entryHash j) = .lt
  hashes : ∀ bin, (∃ i < p.entryCount, p.entryHash i = bin) ↔ wanted bin
  finds : ∀ bin, bin.length = 32 → ∀ i, findEntry p bin = some i ↔ i < p.entryCount ∧ p.entryHash i = bin
  raw : ∀ i < p.entryCount, ∃ form, written (p.entryHash i) = some form ∧
    packRawRegion p (p.entryHash i) = .ok form
  lookup : ∀ i < p.entryCount, ∃ form, written (p.entryHash i) = some form ∧
    ∀ cs noBuf hash, casHexDecode hash = some (p.entryHash i) →
      casPackLookup cs noBuf p hash = regionRead cs noBuf form
  tiles : Tiles 0 (p.extents.map Prod.snd) p.index
  extents : ∀ x ∈ p.extents, ∃ form, written x.1 = some form ∧ form.2.length = CAS_PACK_BLOCK ∧
    slice p.map x.2.1 (x.2.2 - x.2.1) = form.1 ++ form.2

/-- Every octet before the index belongs to one object. -/
theorem PackExact.octet {p : Pack} {wanted : Bytes → Prop} {written : Bytes → Option (Bytes × Bytes)}
    (h : PackExact p wanted written) (at' : Nat) (hat : at' < p.index) :
    ∃! i : Fin (p.extents.map Prod.snd).length, ((p.extents.map Prod.snd).get i).1 ≤ at' ∧
      at' < ((p.extents.map Prod.snd).get i).2 :=
  h.tiles.existsUnique at' (Nat.zero_le _) hat

/-! ## The extents of an image -/

/-- The entries of objects whose blocks start at `offset`. -/
def imageEntries : Nat → List Emitted → List (Bytes × Nat)
  | _, [] => []
  | offset, e :: es => (e.bin, offset + e.region.length) :: imageEntries (offset + e.block.length) es

theorem length_imageEntries (es : List Emitted) (offset : Nat) : (imageEntries offset es).length = es.length := by
  induction es generalizing offset with
  | nil => rfl
  | cons e es ih => simp [imageEntries, ih]

theorem getElem_imageEntries (es : List Emitted) (offset i : Nat) (hi : i < es.length)
    (hi' : i < (imageEntries offset es).length) :
    (imageEntries offset es)[i] = (es[i].bin, offset + offsetOf (es.map Emitted.block) i + es[i].region.length) := by
  induction es generalizing offset i with
  | nil => simp at hi
  | cons e es ih =>
    cases i with
    | zero => simp [imageEntries]
    | succ i =>
      have hrec := ih (offset + e.block.length) i (by simpa using hi) (by simpa [imageEntries] using hi')
      simp only [imageEntries, List.getElem_cons_succ, List.map_cons, offsetOf_cons]
      rw [hrec, Nat.add_assoc offset]

theorem le_of_mem_imageEntries (es : List Emitted) (offset : Nat) (x : Bytes × Nat)
    (h : x ∈ imageEntries offset es) : offset ≤ x.2 := by
  induction es generalizing offset with
  | nil => cases h
  | cons e es ih =>
    rcases List.mem_cons.mp h with rfl | h
    · exact Nat.le_add_right _ _
    · have := ih _ h
      omega

theorem imageEntries_sorted (es : List Emitted) (offset : Nat) :
    (imageEntries offset es).Pairwise fun a b => a.2 ≤ b.2 := by
  induction es generalizing offset with
  | nil => exact List.Pairwise.nil
  | cons e es ih =>
    refine List.pairwise_cons.mpr ⟨?_, ih _⟩
    intro x hx
    have hle := le_of_mem_imageEntries es _ x hx
    have hb : e.block.length = e.region.length + e.trailer.length := List.length_append
    show offset + e.region.length ≤ x.2
    omega

section
variable (es : List Emitted) (ht : ∀ e ∈ es, e.trailer.length = CAS_PACK_BLOCK)
include ht

theorem tiles_extentsFrom (start : Nat) :
    Tiles start ((extentsFrom start (imageEntries start es)).map Prod.snd) (start + (packBody es).length) := by
  induction es generalizing start with
  | nil => exact (Nat.add_zero start).symm
  | cons e es ih =>
    have he := ht e (by simp)
    have hb : e.block.length = e.region.length + e.trailer.length := List.length_append
    have hend : start + e.region.length + CAS_PACK_BLOCK = start + e.block.length := by omega
    have hbody : (packBody (e :: es)).length = e.block.length + (packBody es).length := by simp [packBody]
    have hrec := ih (fun x hx => ht x (by simp [hx])) (start + e.block.length)
    refine ⟨rfl, ?_, ?_⟩
    · show start < start + e.region.length + CAS_PACK_BLOCK
      unfold CAS_PACK_BLOCK
      omega
    · rw [hbody, hend, ← Nat.add_assoc]
      exact hrec

/-- Each extent is the block of an object. -/
theorem extentsFrom_block (start : Nat) (rest : Bytes) (x : Bytes × Nat × Nat)
    (hx : x ∈ extentsFrom start (imageEntries start es)) :
    start ≤ x.2.1 ∧ ∃ e ∈ es, x.1 = e.bin ∧
      slice (packBody es ++ rest) (x.2.1 - start) (x.2.2 - x.2.1) = e.block := by
  induction es generalizing start with
  | nil => cases hx
  | cons e es ih =>
    have he := ht e (by simp)
    have hb : e.block.length = e.region.length + e.trailer.length := List.length_append
    have hend : start + e.region.length + CAS_PACK_BLOCK = start + e.block.length := by omega
    have hbody : packBody (e :: es) ++ rest = e.block ++ (packBody es ++ rest) := by simp [packBody]
    simp only [imageEntries, extentsFrom] at hx
    rw [hend] at hx
    rcases List.mem_cons.mp hx with rfl | hx
    · refine ⟨Nat.le_refl _, e, by simp, rfl, ?_⟩
      rw [hbody, Nat.sub_self]
      exact slice_front _ _ _ (by show start + e.block.length - start = _; omega)
    · obtain ⟨hle, e', he', hbin, hs⟩ := ih (fun x hx => ht x (by simp [hx])) (start + e.block.length) hx
      refine ⟨by omega, e', by simp [he'], hbin, ?_⟩
      rw [hbody, slice_append_of_eq _ _ (x.2.1 - start) (x.2.1 - (start + e.block.length)) _ (by omega)]
      exact hs

end

section
variable (es : List Emitted) (h : PackedOk es)

theorem packOf_entries : (packOf es h).entries = imageEntries 0 es := by
  unfold Pack.entries
  apply List.ext_getElem
  · simp [length_imageEntries, packOf]
  · intro i h1 h2
    have hi : i < es.length := by simpa [length_imageEntries] using h2
    rw [getElem_imageEntries es 0 i hi h2, Nat.zero_add]
    rw [List.getElem_map, List.getElem_range, packOf_entryHash es h i hi, packOf_entryOffset es h i hi]
    rfl

theorem packOf_extents : (packOf es h).extents = extentsFrom 0 (imageEntries 0 es) := by
  unfold Pack.extents
  rw [packOf_entries, List.Pairwise.insertionSort_eq (imageEntries_sorted es 0)]

theorem packOf_index : (packOf es h).index = (packBody es).length := by
  show (packImage es).length - packTailSize es.length = _
  rw [h.tailSize, length_packImage es h.bins]
  omega

end

/-! ## Regions -/

/-- The region of entry `i` is found where it was written unless it is empty and the header announces octets. -/
theorem packRawRegion_image_iff (es : List Emitted) (h : PackedOk es) (hs : BinsSorted es) (i : Nat)
    (hi : i < es.length) (type : CStr)
    (hp : packParseHeader (trailerHeader es[i].trailer) = some (type, es[i].contentLen)) :
    packRawRegion (packOf es h) es[i].bin = .ok (es[i].region, es[i].trailer) ↔
      (es[i].region = [] → es[i].contentLen = 0) := by
  have hfind := findEntry_image es h hs es[i].bin (h.bins es[i] (List.getElem_mem hi)) i hi rfl
  have hle := trailerAt_le es h i hi
  have hlen := length_packImage es h.bins
  have hlt := trailerAt_lt es h i hi
  constructor
  · intro hraw hnil
    obtain ⟨e, type', n, hf, -, htr, hp', -, hsrc⟩ := packRawRegion_ok _ _ _ _ hraw
    rw [hfind] at hf
    obtain rfl := Option.some.inj hf
    rw [hp] at hp'
    obtain rfl := (Prod.mk.inj (Option.some.inj hp')).2
    -- stored size zero: the reader takes the header's length
    have hst : es[i].storedSize = 0 := by
      unfold Emitted.storedSize
      split
      · rfl
      · simp [hnil]
    have hsize : (packOf es h).regionSize i es[i].contentLen = es[i].contentLen := by
      unfold Pack.regionSize
      rw [packOf_entryStored es h i hi, if_neg (by simp [hst])]
    rw [hsize, hnil] at hsrc
    have hlen' := congrArg List.length hsrc
    rw [Pack.length_read] at hlen'
    exact hlen'.symm
  · intro hw
    have hwhole : es[i].Whole := ⟨fun type' n hp' => by
      rw [hp] at hp'
      exact (Prod.mk.inj (Option.some.inj hp')).2.symm, hw⟩
    have hoff : ¬ (trailerAt es i hi + CAS_PACK_BLOCK) % 2 ^ 64 > (packOf es h).map.length := by
      show ¬ _ > (packImage es).length
      rw [hlen]
      unfold CAS_PACK_BLOCK
      omega
    have hreg : ¬ es[i].region.length > trailerAt es i hi := by
      unfold trailerAt
      omega
    unfold packRawRegion
    simp only [hfind, packOf_entryOffset es h i hi, if_neg hoff, packOf_read_trailer es h i hi, hp,
      packOf_entryStored es h i hi, hwhole.regionSize, if_neg hreg, packOf_read_region es h i hi]

/-- An image whose objects can all be found is exact, and an exact one can. -/
theorem packOf_exact_iff (es : List Emitted) (h : PackedOk es) (hs : BinsSorted es) (wanted : Bytes → Prop)
    (written : Bytes → Option (Bytes × Bytes))
    (hp : ∀ e ∈ es, ∃ type, packParseHeader (trailerHeader e.trailer) = some (type, e.contentLen))
    (hw : ∀ e ∈ es, written e.bin = some (e.region, e.trailer)) :
    PackExact (packOf es h) wanted written ↔
      (∀ bin, bin ∈ es.map Emitted.bin ↔ wanted bin) ∧ ∀ e ∈ es, e.region = [] → e.contentLen = 0 := by
  have hmem : ∀ bin, (∃ i < (packOf es h).entryCount, (packOf es h).entryHash i = bin) ↔
      bin ∈ es.map Emitted.bin := by
    intro bin
    have hin := inPack_image es h bin
    unfold InPack at hin
    rw [casPackOpen_image es h] at hin
    rw [← hin]
    constructor
    · intro hex
      exact ⟨_, rfl, hex⟩
    · rintro ⟨p, hpk, hex⟩
      obtain rfl := Option.some.inj hpk
      exact hex
  constructor
  · intro hex
    refine ⟨fun bin => (hmem bin).symm.trans (hex.hashes bin), ?_⟩
    intro e he
    obtain ⟨i, hi, rfl⟩ := List.getElem_of_mem he
    obtain ⟨type, htype⟩ := hp es[i] (List.getElem_mem hi)
    obtain ⟨form, hform, hraw⟩ := hex.raw i hi
    rw [packOf_entryHash es h i hi] at hform hraw
    rw [hw es[i] (List.getElem_mem hi)] at hform
    obtain rfl := Option.some.inj hform
    exact (packRawRegion_image_iff es h hs i hi type htype).mp hraw
  · rintro ⟨hset, hfound⟩
    refine ⟨?_, fun bin => (hmem bin).trans (hset bin), ?_, ?_, ?_, ?_, ?_⟩
    · intro i j hij hj
      have hj' : j < es.length := hj
      have hi' : i < es.length := by omega
      rw [packOf_entryHash es h i hi', packOf_entryHash es h j hj', memcmp_eq_lexcmp, lexcmp_eq_lt]
      · exact hs.getElem_lt es i j hij hj'
      · rw [h.bins es[i] (List.getElem_mem hi'), h.bins es[j] (List.getElem_mem hj')]
    · intro bin hbin i
      constructor
      · intro hf
        unfold findEntry at hf
        obtain ⟨-, hlt, heq⟩ := bsearch_sound _ _ _ _ _ hf
        exact ⟨hlt, (memcmp_eq_eq _ _ (by rw [hbin]; exact Pack.length_read _ _ _)).mp heq⟩
      · rintro ⟨hi, heq⟩
        rw [packOf_entryHash es h i hi] at heq
        exact findEntry_image es h hs bin hbin i hi heq
    · intro i hi
      obtain ⟨type, htype⟩ := hp es[i] (List.getElem_mem hi)
      rw [packOf_entryHash es h i hi]
      exact ⟨_, hw es[i] (List.getElem_mem hi),
        (packRawRegion_image_iff es h hs i hi type htype).mpr (hfound es[i] (List.getElem_mem hi))⟩
    · intro i hi
      obtain ⟨type, htype⟩ := hp es[i] (List.getElem_mem hi)
      rw [packOf_entryHash es h i hi]
      refine ⟨_, hw es[i] (List.getElem_mem hi), ?_⟩
      intro cs noBuf hash hhash
      have hwhole : es[i].Whole := ⟨fun type' n hp' => by
        rw [htype] at hp'
        exact (Prod.mk.inj (Option.some.inj hp')).2.symm, hfound es[i] (List.getElem_mem hi)⟩
      exact casPackLookup_image cs noBuf es h hs i hi hwhole hash hhash
    · rw [packOf_extents, packOf_index]
      have htiles := tiles_extentsFrom es h.trailers 0
      rw [Nat.zero_add] at htiles
      exact htiles
    · intro x hx
      rw [packOf_extents] at hx
      obtain ⟨-, e, he, hbin, hslice⟩ :=
        extentsFrom_block es h.trailers 0 (packIndex 0 es ++ packFooter (packIndex 0 es) es.length) x hx
      refine ⟨_, hbin ▸ hw e he, h.trailers e he, ?_⟩
      exact hslice

/-! ## What is copied -/

/-- A loose file that is nothing but a trailer, one that announces octets. -/
def Hollow (map : Bytes) : Prop :=
  map.length = CAS_PACK_BLOCK ∧ ∃ type n, packParseHeader (trailerHeader map) = some (type, n) ∧ n ≠ 0

section
variable (cs : Codecs) (flt : Faults) (st : Store) (old : Option Pack) (policy : Policy) (codec : Int)

/-- What `pack_create` writes for a hash: the region and the trailer. -/
def packWritten (bin : Bytes) : Option (Bytes × Bytes) :=
  match packEntry cs flt st old policy codec bin with
  | .error _ => none
  | .ok e => some (e.region, e.trailer)

theorem packEntry_header (bin : Bytes) (e : Emitted) (h : packEntry cs flt st old policy codec bin = .ok e) :
    ∃ type, packParseHeader (trailerHeader e.trailer) = some (type, e.contentLen) := by
  obtain ⟨src, tr, type, n, hsrc, hp, hform⟩ := packEntry_ok cs flt st old policy codec bin e h
  rcases hform with ⟨-, rfl⟩ | ⟨payload, -, rfl⟩
  · exact ⟨type, hp⟩
  · refine ⟨type, ?_⟩
    have h56 := length_trailerHeader tr (packSource_trailer flt st old bin src tr hsrc)
    rw [trailerHeader_append _ _ (show CAS_PACK_TRAILER_MAGIC_V2.length = 8 by decide) h56]
    exact hp

/-- The loose file that opens is what is copied. -/
theorem packSource_of_loose (bin map src tr : Bytes) (hb : bin.length = 32)
    (hm : looseMap flt st (toHex bin) = .ok map) (h : packSource flt st old bin = .ok (src, tr)) :
    src = objRegion map ∧ tr = objTrailer map := by
  have hopen : casOpenLooseRaw flt st (toHex bin) = .ok (objRegion map, objTrailer map) ∨
      casOpenLooseRaw flt st (toHex bin) = .error .err := by
    unfold casOpenLooseRaw
    rw [if_neg (by simp [validHash_toHex bin hb]), hm]
    by_cases hf : trailerFramed (objTrailer map) = none
    · exact Or.inr (if_pos hf)
    · exact Or.inl (if_neg hf)
  unfold packSource at h
  rcases hopen with hopen | hopen
  · rw [hopen] at h
    obtain ⟨rfl, rfl⟩ := Prod.mk.inj (Except.ok.inj h)
    exact ⟨rfl, rfl⟩
  · rw [hopen] at h
    cases h

/-- A file of one block is all trailer. -/
theorem objTrailer_block {map : Bytes} (hlen : map.length = CAS_PACK_BLOCK) : objTrailer map = map := by
  unfold objTrailer
  rw [hlen, Nat.sub_self]
  exact slice_all map _ hlen.symm

/-- **Which entries cannot be found**: those made from a hollow loose file, and no others. -/
theorem packEntry_hollow_iff (bin : Bytes) (hb : bin.length = 32) (e : Emitted)
    (h : packEntry cs flt st old policy codec bin = .ok e) :
    (e.region = [] → e.contentLen = 0) ↔
      ∀ map, looseMap flt st (toHex bin) = .ok map → ¬ Hollow map := by
  obtain ⟨src, tr, type, n, hsrc, hp, hform⟩ := packEntry_ok cs flt st old policy codec bin e h
  constructor
  · rintro hfound map hm ⟨hlen, type', n', hp', hn⟩
    obtain ⟨rfl, rfl⟩ := packSource_of_loose flt st old bin map src tr hb hm hsrc
    have hregion : objRegion map = [] := by
      unfold objRegion
      rw [hlen, Nat.sub_self]
      rfl
    rw [objTrailer_block hlen, hp'] at hp
    obtain rfl := (Prod.mk.inj (Option.some.inj hp)).2
    rcases hform with ⟨-, rfl⟩ | ⟨payload, henc, rfl⟩
    · exact hn (hfound hregion)
    · exact (packEncode_spec cs _ _ _ payload henc).2.2 hregion
  · intro hno hnil
    rcases hform with ⟨-, rfl⟩ | ⟨payload, -, rfl⟩
    · -- an empty region was copied as it was
      obtain rfl : src = [] := hnil
      by_contra hn
      unfold packSource at hsrc
      split at hsrc
      · next r hr =>
        obtain rfl := Except.ok.inj hsrc
        unfold casOpenLooseRaw at hr
        split at hr
        · cases hr
        · split at hr
          · cases hr
          · next map hm =>
            split at hr
            · cases hr
            · obtain ⟨hregion, rfl⟩ := Prod.mk.inj (Except.ok.inj hr)
              have hsz := (looseMap_length flt st _ map hm).1
              have hlen : map.length = CAS_PACK_BLOCK := by
                have hl := congrArg List.length hregion
                unfold objRegion at hl
                rw [length_slice _ _ _ (by omega)] at hl
                simp only [List.length_nil] at hl
                unfold CAS_PACK_BLOCK at *
                omega
              rw [objTrailer_block hlen] at hp
              exact hno map hm ⟨hlen, type, n, hp, hn⟩
      · split at hsrc
        · cases hsrc
        · next p =>
          split at hsrc
          · next r hr =>
            obtain rfl := Except.ok.inj hsrc
            -- the old pack's region has the length that was looked for
            obtain ⟨i, type', n', -, -, -, hp', -, hread⟩ := packRawRegion_ok p bin [] tr hr
            rw [hp] at hp'
            obtain rfl := (Prod.mk.inj (Option.some.inj hp')).2
            have hl := congrArg List.length hread
            rw [Pack.length_read] at hl
            unfold Pack.regionSize at hl
            split at hl
            · next hst => exact hst hl.symm
            · exact hn hl.symm
          · cases hsrc
      · cases hsrc
    · cases hnil

end

/-! ## The result -/

/-- **A packfile lays out exactly what it indexes** if and only if every hash that should be in it was
walked over and none of those is, where its loose file opens, a hollow one. -/
theorem pack_layout_iff (cs : Codecs) (flt : Faults) (st st' : Store) (path : Bytes) (policy : Policy) (codec : Int)
    (keep : Keep) (h : packCreate cs flt st path policy codec keep = (.ok, st'))
    (hk : keptHashes flt st (casPackOpen (flt .openPack) (st.file path)) keep ≠ []) :
    (∃ p, casPackOpen false (st'.file path) = some p ∧ PackExact p (Wanted st path keep)
      (packWritten cs flt st (casPackOpen (flt .openPack) (st.file path)) policy codec)) ↔
    ∀ bin, Wanted st path keep bin →
      Walked flt st path bin ∧ ∀ map, looseMap flt st (toHex bin) = .ok map → ¬ Hollow map := by
  have hkept := mem_kept_iff_walked flt st path keep
  have hlength := length_of_kept flt st (casPackOpen (flt .openPack) (st.file path)) keep
  rcases packCreate_ok cs flt st st' path policy codec keep h with ⟨hnil, -⟩ | ⟨es, -, hbins, hes, hok, hs, rfl⟩
  · exact absurd hnil hk
  · generalize casPackOpen (flt .openPack) (st.file path) = old at *
    have hwritten : ∀ e ∈ es, packWritten cs flt st old policy codec e.bin = some (e.region, e.trailer) := by
      intro e he
      unfold packWritten
      rw [hes e he]
    have hexact := packOf_exact_iff es hok hs (Wanted st path keep) _
      (fun e he => packEntry_header cs flt st old policy codec e.bin e (hes e he)) hwritten
    rw [setFile_self, casPackOpen_image es hok]
    constructor
    · rintro ⟨p, hp, hpe⟩ bin hw
      obtain rfl := Option.some.inj hp
      obtain ⟨hset, hfound⟩ := hexact.mp hpe
      have hmem := (hset bin).mpr hw
      obtain ⟨e, he, rfl⟩ := List.mem_map.mp hmem
      refine ⟨((hkept e.bin).mp (hbins ▸ hmem)).1, ?_⟩
      exact (packEntry_hollow_iff cs flt st old policy codec e.bin (hlength _ (hbins ▸ hmem)) e (hes e he)).mp
        (hfound e he)
    · intro hall
      refine ⟨_, rfl, hexact.mpr ⟨?_, ?_⟩⟩
      · intro bin
        rw [hbins, hkept]
        constructor
        · rintro ⟨hwalk, hacc⟩
          exact ⟨inLoose_or_inPack_of_walked flt st path bin hwalk, hacc⟩
        · intro hw
          exact ⟨(hall bin hw).1, hw.2⟩
      · intro e he
        have hmem : e.bin ∈ keptHashes flt st old keep := hbins ▸ List.mem_map_of_mem he
        obtain ⟨hwalk, hacc⟩ := (hkept e.bin).mp hmem
        exact (packEntry_hollow_iff cs flt st old policy codec e.bin (hlength _ hmem) e (hes e he)).mpr
          (hall e.bin ⟨inLoose_or_inPack_of_walked flt st path e.bin hwalk, hacc⟩).2

/-- The pack of the depot with two copies meets the hypotheses. -/
theorem pack_layout_twoCopies : ∃ st',
    packCreate [] noFaults (twoCopies 1 2) packDat .never CAS_CODEC_NONE none = (.ok, st') ∧
      ((∃ p, casPackOpen false (st'.file packDat) = some p ∧ PackExact p (Wanted (twoCopies 1 2) packDat none)
        (packWritten [] noFaults (twoCopies 1 2) (casPackOpen false ((twoCopies 1 2).file packDat)) .never
          CAS_CODEC_NONE)) ↔
        ∀ bin, Wanted (twoCopies 1 2) packDat none bin → Walked noFaults (twoCopies 1 2) packDat bin ∧
          ∀ map, looseMap noFaults (twoCopies 1 2) (toHex bin) = .ok map → ¬ Hollow map) := by
  have hk : keptHashes noFaults (twoCopies 1 2)
      (casPackOpen (noFaults .openPack) ((twoCopies 1 2).file packDat)) none ≠ [] := by
    rw [show casPackOpen (noFaults .openPack) ((twoCopies 1 2).file packDat) = (twoCopies 1 2).pack from
      twoCopies_sync 1 2, kept_twoCopies]
    simp
  exact ⟨_, packCreate_twoCopies,
    pack_layout_iff [] noFaults (twoCopies 1 2) _ packDat .never CAS_CODEC_NONE none packCreate_twoCopies hk⟩

/-! ## A hollow file -/

/-- The trailer of a blob of one octet, without the octet. -/
def hollowDepot : Store where
  loose := AList.singleton (toHex zeroBin) ⟨byteTrailer, 0⟩
  file _ := none
  pack := none

def hollowEntry : Emitted := ⟨zeroBin, [], byteTrailer, 1⟩

theorem packedOk_hollowEntry : PackedOk [hollowEntry] where
  bins := by simp [hollowEntry, zeroBin]
  trailers := by
    have h : byteTrailer.length = 64 := by decide
    simp [hollowEntry, h]
  size := by
    rw [length_packImage _ (by simp [hollowEntry, zeroBin])]
    have h : byteTrailer.length = 64 := by decide
    simp [packBody, hollowEntry, Emitted.block, h]

theorem packCreate_hollowDepot : packCreate [] noFaults hollowDepot packDat .never CAS_CODEC_NONE none =
    (.ok, hollowDepot.setFile packDat (packImage [hollowEntry])) := by
  have hkept : keptHashes noFaults hollowDepot none none = [zeroBin] := by decide +kernel
  have hentry : packEntries [] noFaults hollowDepot none .never CAS_CODEC_NONE 0 [zeroBin] = .ok [hollowEntry] := by
    decide +kernel
  refine packCreate_run [] noFaults _ packDat .never CAS_CODEC_NONE none (fun _ _ => rfl) [hollowEntry] ?_
    (by simp) ?_ packedOk_hollowEntry.size
  · exact hkept
  · exact hentry

/-- **A packed object that no reader finds**: the depot's one loose file has lost its octet, the pack is
written and opens, and the region of its one entry is looked for in front of the file. -/
theorem pack_hollow_not_found : ∃ st' p,
    packCreate [] noFaults hollowDepot packDat .never CAS_CODEC_NONE none = (.ok, st') ∧
      casPackOpen false (st'.file packDat) = some p ∧ findEntry p zeroBin = some 0 ∧
      packWritten [] noFaults hollowDepot none .never CAS_CODEC_NONE zeroBin = some ([], byteTrailer) ∧
      (∀ form, packRawRegion p zeroBin ≠ .ok form) ∧
      ¬ PackExact p (Wanted hollowDepot packDat none)
        (packWritten [] noFaults hollowDepot none .never CAS_CODEC_NONE) := by
  have hs : BinsSorted [hollowEntry] := by simp [BinsSorted]
  have hfind : findEntry (packOf [hollowEntry] packedOk_hollowEntry) zeroBin = some 0 :=
    findEntry_image [hollowEntry] packedOk_hollowEntry hs zeroBin rfl 0 (by simp) rfl
  have hwritten : packWritten [] noFaults hollowDepot none .never CAS_CODEC_NONE zeroBin =
      some ([], byteTrailer) := by decide +kernel
  have hp : packParseHeader (trailerHeader byteTrailer) = some (tBlob, 1) := by decide +kernel
  have hraw : ∀ form, packRawRegion (packOf [hollowEntry] packedOk_hollowEntry) zeroBin ≠ .ok form := by
    rintro ⟨src, tr⟩ hr
    obtain ⟨e, type, n, hf, -, htr, hp', hsize, -⟩ := packRawRegion_ok _ _ _ _ hr
    rw [hfind] at hf
    obtain rfl := Option.some.inj hf
    have hoff : (packOf [hollowEntry] packedOk_hollowEntry).entryOffset 0 = 0 :=
      packOf_entryOffset [hollowEntry] packedOk_hollowEntry 0 (by simp)
    have hstored : (packOf [hollowEntry] packedOk_hollowEntry).entryStored 0 = 0 :=
      packOf_entryStored [hollowEntry] packedOk_hollowEntry 0 (by simp)
    have htrailer := packOf_read_trailer [hollowEntry] packedOk_hollowEntry 0 (by simp)
    rw [hoff] at htr
    rw [htr, show (packOf [hollowEntry] packedOk_hollowEntry).read 0 CAS_PACK_BLOCK = byteTrailer from htrailer,
      hp] at hp'
    obtain rfl := (Prod.mk.inj (Option.some.inj hp')).2
    -- one octet before offset zero
    apply hsize
    unfold Pack.regionSize
    rw [hoff, hstored, if_neg (by simp)]
    exact Nat.one_pos
  refine ⟨_, packOf [hollowEntry] packedOk_hollowEntry, packCreate_hollowDepot, ?_, hfind, hwritten, hraw, ?_⟩
  · rw [setFile_self]
    exact casPackOpen_image [hollowEntry] packedOk_hollowEntry
  · intro hex
    obtain ⟨form, -, hform⟩ := hex.raw 0 (show 0 < 1 by omega)
    rw [packOf_entryHash [hollowEntry] packedOk_hollowEntry 0 (by simp)] at hform
    exact hraw form hform

end Smolvfs
