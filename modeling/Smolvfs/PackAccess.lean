import Smolvfs.PackImage
import Smolvfs.Lib.Traced

/-!
# What the readers of a pack touch

The readers of `cas-pack.c` again, each with the regions of the mapping it goes to
(`Reads`), and `cas_pack_fsck`.  A region is where a pointer leads and how many octets
the code has there; that a reader computes what it computed before is its `_val` lemma.

* `openReads_inside_iff`: `cas_pack_open` stays in the file exactly when the size of the
  index and the footer does not wrap;
* `pack_inside_iff`: all readers do exactly when it does not and no trailer is indexed
  in the last 64 places of the 64-bit range.
-/

namespace Smolvfs

open Octets Search Traces

/-- `len` octets of the mapping at `off`. -/
structure Region where
  off : Nat
  len : Nat
  deriving DecidableEq, Repr

/-- Inside a file of `n` octets. -/
def Region.Inside (n : Nat) (r : Region) : Prop := r.off + r.len ≤ n

abbrev Reads (α : Type) := Traced Region α

def touch (off len : Nat) : Reads Unit := emit ⟨off, len⟩

/-! ## The readers -/

/-- The footer of a file. -/
def footerOf (map : Bytes) : Bytes := slice map (map.length - CAS_PACK_BLOCK) CAS_PACK_BLOCK

/-- `cas_pack_open`: the footer, then what its checksum covers. -/
def casPackOpenReads (map : Bytes) : Reads (Option Pack) :=
  if map.length < CAS_PACK_BLOCK then pure none
  else do
    touch (map.length - CAS_PACK_BLOCK) CAS_PACK_BLOCK
    if slice (footerOf map) 0 CAS_PACK_MAGIC_LEN ≠ CAS_PACK_FOOTER_MAGIC_V1 then pure none
    else
      let count := loadLe (slice (footerOf map) 8 8)
      if h : packTailSize count > map.length then pure none
      else do
        let index := map.length - packTailSize count
        let checkLen := (packIndexSize count + 16) % 2 ^ 64
        touch index checkLen
        if casDigest (slice map index checkLen) ≠ slice (footerOf map) 16 CAS_HASH_LEN then pure none
        else pure (some ⟨map, count, tail_fits map count h⟩)

/-- The loop of `find_entry`, an entry at each turn. -/
def findEntryLoop (p : Pack) (binHash : Bytes) : Nat → Nat → Nat → Reads (Option Nat)
  | 0, _, _ => pure none
  | fuel + 1, lo, hi =>
    if lo < hi then do
      let mid := lo + (hi - lo) / 2
      touch (p.entry mid) CAS_PACK_BLOCK
      match memcmp (p.entryHash mid) binHash with
      | .lt => findEntryLoop p binHash fuel (mid + 1) hi
      | .gt => findEntryLoop p binHash fuel lo mid
      | .eq => pure (some mid)
    else pure none

def findEntryReads (p : Pack) (binHash : Bytes) : Reads (Option Nat) :=
  findEntryLoop p binHash (p.entryCount + 1) 0 p.entryCount

/-- `pack_raw_region`; the region is the caller's to copy. -/
def packRawRegionReads (p : Pack) (binHash : Bytes) : Reads (Except Status (Bytes × Bytes)) := do
  match ← findEntryReads p binHash with
  | none => pure (.error .enotfound)
  | some e =>
    let trailerOff := p.entryOffset e
    if (trailerOff + CAS_PACK_BLOCK) % 2 ^ 64 > p.map.length then pure (.error .err)
    else do
      touch trailerOff CAS_PACK_BLOCK
      let tr := p.read trailerOff CAS_PACK_BLOCK
      match packParseHeader (trailerHeader tr) with
      | none => pure (.error .err)
      | some (_, contentLen) =>
        let rsize := p.regionSize e contentLen
        if rsize > trailerOff then pure (.error .err)
        else do
          touch (trailerOff - rsize) rsize
          pure (.ok (p.read (trailerOff - rsize) rsize, tr))

/-- `cas_pack_lookup` -/
def casPackLookupReads (cs : Codecs) (noBuf : Bool) (p : Pack) (hash : Bytes) :
    Reads (Except Status (CStr × Bytes)) :=
  match casHexDecode hash with
  | none => pure (.error .err)
  | some bin => do
    match ← findEntryReads p bin with
    | none => pure (.error .enotfound)
    | some e =>
      let trailerOff := p.entryOffset e
      if (trailerOff + CAS_PACK_BLOCK) % 2 ^ 64 > p.map.length then pure (.error .err)
      else do
        touch trailerOff CAS_PACK_BLOCK
        let tr := p.read trailerOff CAS_PACK_BLOCK
        match trailerFramed tr with
        | none => pure (.error .err)
        | some framed =>
          match packParseHeader (trailerHeader tr) with
          | none => pure (.error .err)
          | some (type, contentLen) =>
            let regionSize := p.regionSize e contentLen
            if regionSize > trailerOff then pure (.error .err)
            else do
              touch (trailerOff - regionSize) regionSize
              let region := p.read (trailerOff - regionSize) regionSize
              pure ((casCodecRegionDecode cs noBuf region framed contentLen).map fun data => (type, data))

/-- The loop of `cas_pack_foreach`: the hashes it hands out.  The callback answers to all it has
been given. -/
def foreachLoop (p : Pack) (fn : List Bytes → Bool) : List Nat → List Bytes → Reads (List Bytes)
  | [], seen => pure seen
  | i :: is, seen => do
    touch (p.entry i) CAS_PACK_BLOCK
    let seen := seen ++ [toHex (p.entryHash i)]
    if fn seen then pure seen else foreachLoop p fn is seen

def casPackForeachReads (p : Pack) (fn : List Bytes → Bool) : Reads (List Bytes) :=
  foreachLoop p fn (List.range p.entryCount) []

/-- The status that `cas_pack_fsck` finds for entry `i`. -/
def packFsckEntry (cs : Codecs) (noBuf : Bool) (p : Pack) (i : Nat) : Reads FsckStatus := do
  touch (p.entry i) CAS_PACK_BLOCK
  let trailerOff := p.entryOffset i
  if (trailerOff + CAS_PACK_BLOCK) % 2 ^ 64 > p.map.length then pure .ioerr
  else do
    touch trailerOff CAS_PACK_BLOCK
    let tr := p.read trailerOff CAS_PACK_BLOCK
    match trailerFramed tr with
    | none => pure .corrupt
    | some framed =>
      match packParseHeader (trailerHeader tr) with
      | none => pure .corrupt
      | some (type, contentLen) =>
        if casTypeIsReencoded type then pure .reencoded
        else
          let regionSize := p.regionSize i contentLen
          if regionSize > trailerOff then pure .corrupt
          else do
            touch (trailerOff - regionSize) regionSize
            match casCodecRegionDecode cs noBuf (p.read (trailerOff - regionSize) regionSize) framed contentLen with
            | .error .etype => pure .nocodec
            | .error .enomem => pure .ioerr
            | .error _ => pure .corrupt
            | .ok data => pure (if casDigestObject type data ≠ p.entryHash i then .corrupt else .ok)

/-- What counts as an error of the pack; `CAS_FSCK_NOCODEC` and `CAS_FSCK_REENCODED` are skips. -/
def FsckStatus.isError (status : FsckStatus) : Bool :=
  decide (status ≠ .ok ∧ status ≠ .nocodec ∧ status ≠ .reencoded)

/-- The loop of `cas_pack_fsck`: what has been reported. -/
def packFsckLoop (cs : Codecs) (noBuf : Bool) (p : Pack) (fn : List (Bytes × FsckStatus) → Bool) :
    List Nat → List (Bytes × FsckStatus) → Reads (List (Bytes × FsckStatus))
  | [], seen => pure seen
  | i :: is, seen => do
    let status ← packFsckEntry cs noBuf p i
    let seen := seen ++ [(toHex (p.entryHash i), status)]
    if fn seen then pure seen else packFsckLoop cs noBuf p fn is seen

/-- `cas_pack_fsck`: its result and what it reports. -/
def casPackFsck (cs : Codecs) (noBuf : Bool) (p : Pack) (fn : List (Bytes × FsckStatus) → Bool) :
    Reads (Status × List (Bytes × FsckStatus)) := do
  let seen ← packFsckLoop cs noBuf p fn (List.range p.entryCount) []
  pure (if seen.any fun r => r.2.isError then .err else .ok, seen)

/-! ## They are the readers of before -/

theorem casPackOpenReads_val (map : Bytes) : (casPackOpenReads map).val = casPackOpen false (some map) := by
  unfold casPackOpenReads casPackOpen footerOf
  simp only [Bool.false_eq_true, if_false]
  split
  · rfl
  · rw [val_bind]
    split
    · rfl
    · split
      · rfl
      · rw [val_bind]
        split <;> rfl

theorem findEntryLoop_val (p : Pack) (bin : Bytes) (fuel lo hi : Nat) :
    (findEntryLoop p bin fuel lo hi).val = bsearch (fun i => memcmp (p.entryHash i) bin) fuel lo hi := by
  induction fuel generalizing lo hi with
  | zero => rfl
  | succ fuel ih =>
    unfold findEntryLoop bsearch
    split
    · rw [val_bind]
      simp only []
      cases memcmp (p.entryHash (lo + (hi - lo) / 2)) bin with
      | lt => exact ih _ _
      | gt => exact ih _ _
      | eq => rfl
    · rfl

theorem findEntryReads_val (p : Pack) (bin : Bytes) : (findEntryReads p bin).val = findEntry p bin :=
  findEntryLoop_val p bin _ _ _

theorem packRawRegionReads_val (p : Pack) (bin : Bytes) :
    (packRawRegionReads p bin).val = packRawRegion p bin := by
  unfold packRawRegionReads packRawRegion
  rw [val_bind, findEntryReads_val]
  cases findEntry p bin with
  | none => rfl
  | some e =>
    simp only []
    split
    · rfl
    · rw [val_bind]
      cases packParseHeader (trailerHeader (p.read (p.entryOffset e) CAS_PACK_BLOCK)) with
      | none => rfl
      | some th =>
        show (if p.regionSize e th.2 > p.entryOffset e then _ else _ : Reads _).val =
          if p.regionSize e th.2 > p.entryOffset e then _ else _
        split <;> rfl

theorem casPackLookupReads_val (cs : Codecs) (noBuf : Bool) (p : Pack) (hash : Bytes) :
    (casPackLookupReads cs noBuf p hash).val = casPackLookup cs noBuf p hash := by
  unfold casPackLookupReads casPackLookup
  cases casHexDecode hash with
  | none => rfl
  | some bin =>
    simp only [val_bind, findEntryReads_val]
    cases findEntry p bin with
    | none => rfl
    | some e =>
      simp only []
      split
      · rfl
      · rw [val_bind]
        cases trailerFramed (p.read (p.entryOffset e) CAS_PACK_BLOCK) with
        | none => rfl
        | some framed =>
          simp only []
          cases packParseHeader (trailerHeader (p.read (p.entryOffset e) CAS_PACK_BLOCK)) with
          | none => rfl
          | some th =>
            show (if p.regionSize e th.2 > p.entryOffset e then _ else _ : Reads _).val =
              if p.regionSize e th.2 > p.entryOffset e then _ else _
            split <;> rfl

/-- With a callback that never stops the hashes are those of the whole index. -/
theorem casPackForeachReads_val (p : Pack) : (casPackForeachReads p fun _ => false).val = casPackHashes p := by
  have hloop : ∀ (is : List Nat) (seen : List Bytes), (foreachLoop p (fun _ => false) is seen).val =
      seen ++ is.map fun i => toHex (p.entryHash i) := by
    intro is
    induction is with
    | nil => intro seen; exact (List.append_nil seen).symm
    | cons i is ih =>
      intro seen
      unfold foreachLoop
      rw [val_bind]
      simp only [Bool.false_eq_true, if_false]
      rw [ih, List.append_assoc]
      rfl
  exact hloop _ _

/-! ## Inside the file -/

theorem casPackOpen_some (map : Bytes) (p : Pack) (h : casPackOpen false (some map) = some p) :
    p.map = map ∧ CAS_PACK_BLOCK ≤ map.length ∧ slice (footerOf map) 0 CAS_PACK_MAGIC_LEN = CAS_PACK_FOOTER_MAGIC_V1 ∧
      p.entryCount = loadLe (slice (footerOf map) 8 8) := by
  unfold casPackOpen at h
  simp only [Bool.false_eq_true, if_false] at h
  split at h
  · cases h
  · next h64 =>
    split at h
    · cases h
    · next hmagic =>
      split at h
      · cases h
      · split at h
        · cases h
        · obtain rfl := Option.some.inj h
          exact ⟨rfl, Nat.not_lt.mp h64, not_not.mp hmagic, rfl⟩

/-- `cas_pack_open` stays in the file exactly when the size of the tail does not wrap to 0. -/
theorem openReads_inside_iff (map : Bytes) (p : Pack) (hlen : map.length < 2 ^ 63)
    (h : casPackOpen false (some map) = some p) :
    (casPackOpenReads map).All (Region.Inside map.length) ↔ packIndexSize p.entryCount + CAS_PACK_BLOCK < 2 ^ 64 := by
  obtain ⟨hmap, h64, hmagic, hcount⟩ := casPackOpen_some map p h
  have htail := p.tail_le
  rw [hmap, hcount] at htail
  rw [hcount]
  unfold casPackOpenReads
  rw [if_neg (Nat.not_lt.mpr h64), all_bind, if_neg (not_not.mpr hmagic)]
  simp only []
  rw [dif_neg (Nat.not_lt.mpr htail), all_bind]
  have hend : ∀ (q : Prop) [Decidable q] (a b : Option Pack),
      (if q then pure a else pure b : Reads (Option Pack)).All (Region.Inside map.length) := by
    intro q _ a b
    split <;> exact all_pure _ _
  simp only [hend, and_true, touch, all_emit]
  unfold Region.Inside
  unfold packTailSize packIndexSize CAS_PACK_BLOCK at *
  generalize loadLe (slice (footerOf map) 8 8) = count at htail ⊢
  simp only []
  constructor
  · rintro ⟨-, hchk⟩
    omega
  · intro hfit
    omega

section
variable {p : Pack}

/-- With an index whose size does not wrap, an entry is before the footer. -/
theorem entry_inside (hfit : p.entryCount * CAS_PACK_BLOCK + CAS_PACK_BLOCK < 2 ^ 64) (i : Nat)
    (hi : i < p.entryCount) :
    Region.Inside p.map.length ⟨p.entry i, CAS_PACK_BLOCK⟩ := by
  have htail := p.tail_le
  unfold Region.Inside Pack.entry Pack.index
  unfold packTailSize packIndexSize CAS_PACK_BLOCK at *
  simp only []
  omega

/-- When the count reaches `2 ^ 58`, some entry starts where the file ends. -/
theorem entry_outside (hcount : p.entryCount < 2 ^ 64)
    (htail : packIndexSize p.entryCount + CAS_PACK_BLOCK < 2 ^ 64)
    (hwrap : 2 ^ 64 ≤ p.entryCount * CAS_PACK_BLOCK + CAS_PACK_BLOCK) :
    ∃ i < p.entryCount, ¬ Region.Inside p.map.length ⟨p.entry i, CAS_PACK_BLOCK⟩ := by
  have hle := p.tail_le
  refine ⟨p.entryCount % 2 ^ 58 + 1, ?_, ?_⟩
  · unfold packTailSize packIndexSize CAS_PACK_BLOCK at *
    omega
  · unfold Region.Inside Pack.entry Pack.index
    unfold packTailSize packIndexSize CAS_PACK_BLOCK at *
    simp only []
    omega

/-- The loop probes entries of its window only. -/
theorem findEntryLoop_all (P : Region → Prop) (bin : Bytes) (n : Nat) (hP : ∀ i < n, P ⟨p.entry i, CAS_PACK_BLOCK⟩)
    (fuel lo hi : Nat) (hhi : hi ≤ n) : (findEntryLoop p bin fuel lo hi).All P := by
  induction fuel generalizing lo hi with
  | zero => exact all_pure _ _
  | succ fuel ih =>
    unfold findEntryLoop
    split
    · next hlt =>
      have hmid : lo + (hi - lo) / 2 < hi := by omega
      simp only [all_bind, touch, all_emit]
      refine ⟨hP _ (Nat.lt_of_lt_of_le hmid hhi), ?_⟩
      cases memcmp (p.entryHash (lo + (hi - lo) / 2)) bin with
      | lt => exact ih _ _ hhi
      | gt => exact ih _ _ (by omega)
      | eq => exact all_pure _ _
    · exact all_pure _ _

/-- What the readers check of a trailer, when `trailer_off + CAS_PACK_BLOCK` does not wrap. -/
theorem trailer_inside (off : Nat) (hfit : off + CAS_PACK_BLOCK < 2 ^ 64)
    (hchk : ¬ (off + CAS_PACK_BLOCK) % 2 ^ 64 > p.map.length) : Region.Inside p.map.length ⟨off, CAS_PACK_BLOCK⟩ := by
  rw [Nat.mod_eq_of_lt hfit] at hchk
  exact Nat.not_lt.mp hchk

/-- A trailer in the last 64 places of the range passes the check and is not in the file. -/
theorem trailer_outside (off : Nat) (hoff : off < 2 ^ 64) (hlen : p.map.length < 2 ^ 47)
    (h64 : CAS_PACK_BLOCK ≤ p.map.length)
    (hwrap : 2 ^ 64 ≤ off + CAS_PACK_BLOCK) :
    ¬ (off + CAS_PACK_BLOCK) % 2 ^ 64 > p.map.length ∧ ¬ Region.Inside p.map.length ⟨off, CAS_PACK_BLOCK⟩ := by
  unfold Region.Inside
  unfold CAS_PACK_BLOCK at *
  simp only []
  omega

/-- The data region is before its trailer. -/
theorem data_inside (off size : Nat) (h : Region.Inside p.map.length ⟨off, CAS_PACK_BLOCK⟩) (hsize : ¬ size > off) :
    Region.Inside p.map.length ⟨off - size, size⟩ := by
  unfold Region.Inside at *
  simp only [] at *
  omega

end

/-- Every index entry, trailer and data region that the readers of a pack go to is in its file, whatever
hash is looked for and however the callbacks answer. -/
structure PackSafe (cs : Codecs) (noBuf : Bool) (p : Pack) : Prop where
  opens : (casPackOpenReads p.map).All (Region.Inside p.map.length)
  finds : ∀ bin, bin.length = CAS_HASH_LEN → (findEntryReads p bin).All (Region.Inside p.map.length)
  raw : ∀ bin, bin.length = CAS_HASH_LEN → (packRawRegionReads p bin).All (Region.Inside p.map.length)
  lookup : ∀ hash, (casPackLookupReads cs noBuf p hash).All (Region.Inside p.map.length)
  each : ∀ fn, (casPackForeachReads p fn).All (Region.Inside p.map.length)
  fsck : ∀ fn, (casPackFsck cs noBuf p fn).All (Region.Inside p.map.length)

section
variable {cs : Codecs} {noBuf : Bool} {p : Pack}

/-! ### Offsets that do not wrap keep the readers inside -/

section
variable (hfit : p.entryCount * CAS_PACK_BLOCK + CAS_PACK_BLOCK < 2 ^ 64)
  (htr : ∀ i < p.entryCount, p.entryOffset i + CAS_PACK_BLOCK < 2 ^ 64)
include hfit

theorem findEntry_inside (bin : Bytes) : (findEntryReads p bin).All (Region.Inside p.map.length) :=
  findEntryLoop_all _ bin p.entryCount (fun i hi => entry_inside hfit i hi) _ _ _ (Nat.le_refl _)

theorem foreach_inside (fn : List Bytes → Bool) : (casPackForeachReads p fn).All (Region.Inside p.map.length) := by
  have hloop : ∀ (is : List Nat) (seen : List Bytes), (∀ i ∈ is, i < p.entryCount) →
      (foreachLoop p fn is seen).All (Region.Inside p.map.length) := by
    intro is
    induction is with
    | nil => intro seen _; exact all_pure _ _
    | cons i is ih =>
      intro seen his
      unfold foreachLoop
      simp only [all_bind, touch, all_emit]
      refine ⟨entry_inside hfit i (his i List.mem_cons_self), ?_⟩
      split
      · exact all_pure _ _
      · exact ih _ fun j hj => his j (List.mem_cons_of_mem i hj)
  exact hloop _ _ fun i hi => List.mem_range.mp hi

include htr

theorem packRawRegion_inside (bin : Bytes) : (packRawRegionReads p bin).All (Region.Inside p.map.length) := by
  unfold packRawRegionReads
  rw [all_bind, findEntryReads_val]
  refine ⟨findEntry_inside hfit bin, ?_⟩
  cases hf : findEntry p bin with
  | none => exact all_pure _ _
  | some e =>
    obtain ⟨-, he, -⟩ := bsearch_sound _ _ _ _ _ hf
    simp only []
    split
    · exact all_pure _ _
    · next hchk =>
      have htrailer := trailer_inside _ (htr e he) hchk
      rw [all_bind, touch, all_emit]
      refine ⟨htrailer, ?_⟩
      split
      · exact all_pure _ _
      · split
        · exact all_pure _ _
        · next hsize =>
          rw [all_bind, touch, all_emit]
          exact ⟨data_inside _ _ htrailer hsize, all_pure _ _⟩

theorem lookup_inside (hash : Bytes) : (casPackLookupReads cs noBuf p hash).All (Region.Inside p.map.length) := by
  unfold casPackLookupReads
  cases casHexDecode hash with
  | none => exact all_pure _ _
  | some bin =>
    simp only [all_bind, findEntryReads_val]
    refine ⟨findEntry_inside hfit bin, ?_⟩
    cases hf : findEntry p bin with
    | none => exact all_pure _ _
    | some e =>
      obtain ⟨-, he, -⟩ := bsearch_sound _ _ _ _ _ hf
      simp only []
      split
      · exact all_pure _ _
      · next hchk =>
        have htrailer := trailer_inside _ (htr e he) hchk
        rw [all_bind, touch, all_emit]
        refine ⟨htrailer, ?_⟩
        split
        · exact all_pure _ _
        · split
          · exact all_pure _ _
          · split
            · exact all_pure _ _
            · next hsize =>
              rw [all_bind, touch, all_emit]
              exact ⟨data_inside _ _ htrailer hsize, all_pure _ _⟩

theorem packFsckEntry_inside (i : Nat) (hi : i < p.entryCount) :
    (packFsckEntry cs noBuf p i).All (Region.Inside p.map.length) := by
  unfold packFsckEntry
  rw [all_bind, touch, all_emit]
  refine ⟨entry_inside hfit i hi, ?_⟩
  simp only []
  split
  · exact all_pure _ _
  · next hchk =>
    have htrailer := trailer_inside _ (htr i hi) hchk
    rw [all_bind, touch, all_emit]
    refine ⟨htrailer, ?_⟩
    split
    · exact all_pure _ _
    · split
      · exact all_pure _ _
      · split
        · exact all_pure _ _
        · split
          · exact all_pure _ _
          · next hsize =>
            rw [all_bind, touch, all_emit]
            refine ⟨data_inside _ _ htrailer hsize, ?_⟩
            split <;> exact all_pure _ _

theorem packFsck_inside (fn : List (Bytes × FsckStatus) → Bool) :
    (casPackFsck cs noBuf p fn).All (Region.Inside p.map.length) := by
  have hloop : ∀ (is : List Nat) (seen : List (Bytes × FsckStatus)), (∀ i ∈ is, i < p.entryCount) →
      (packFsckLoop cs noBuf p fn is seen).All (Region.Inside p.map.length) := by
    intro is
    induction is with
    | nil => intro seen _; exact all_pure _ _
    | cons i is ih =>
      intro seen his
      unfold packFsckLoop
      rw [all_bind]
      refine ⟨packFsckEntry_inside hfit htr i (his i List.mem_cons_self), ?_⟩
      simp only []
      split
      · exact all_pure _ _
      · exact ih _ fun j hj => his j (List.mem_cons_of_mem i hj)
  unfold casPackFsck
  rw [all_bind]
  exact ⟨hloop _ _ fun i hi => List.mem_range.mp hi, all_pure _ _⟩

end

/-! ### A callback that never stops sees every entry -/

theorem foreach_visits (P : Region → Prop) (h : (casPackForeachReads p fun _ => false).All P) (i : Nat)
    (hi : i < p.entryCount) : P ⟨p.entry i, CAS_PACK_BLOCK⟩ := by
  have hloop : ∀ (is : List Nat) (seen : List Bytes), (foreachLoop p (fun _ => false) is seen).All P →
      ∀ i ∈ is, P ⟨p.entry i, CAS_PACK_BLOCK⟩ := by
    intro is
    induction is with
    | nil => intro seen _ i hi; cases hi
    | cons j is ih =>
      intro seen hall i hi
      unfold foreachLoop at hall
      simp only [all_bind, touch, all_emit, Bool.false_eq_true, if_false] at hall
      rcases List.mem_cons.mp hi with rfl | hi
      · exact hall.1
      · exact ih _ hall.2 i hi
  exact hloop _ _ h i (List.mem_range.mpr hi)

theorem packFsck_visits (P : Region → Prop) (h : (casPackFsck cs noBuf p fun _ => false).All P) (i : Nat)
    (hi : i < p.entryCount) : (packFsckEntry cs noBuf p i).All P := by
  have hloop : ∀ (is : List Nat) (seen : List (Bytes × FsckStatus)),
      (packFsckLoop cs noBuf p (fun _ => false) is seen).All P → ∀ i ∈ is, (packFsckEntry cs noBuf p i).All P := by
    intro is
    induction is with
    | nil => intro seen _ i hi; cases hi
    | cons j is ih =>
      intro seen hall i hi
      unfold packFsckLoop at hall
      simp only [all_bind, Bool.false_eq_true, if_false] at hall
      rcases List.mem_cons.mp hi with rfl | hi
      · exact hall.1
      · exact ih _ hall.2 i hi
  unfold casPackFsck at h
  rw [all_bind] at h
  exact hloop _ _ h.1 i (List.mem_range.mpr hi)

end

theorem entryOffset_lt (p : Pack) (i : Nat) : p.entryOffset i < 2 ^ 64 := by
  have h := loadLe_lt (p.read (p.entry i + 32) 8)
  rw [Pack.length_read] at h
  exact h

/-- Offsets that do not wrap make a pack safe. -/
theorem packSafe_of_fit (cs : Codecs) (noBuf : Bool) (map : Bytes) (p : Pack) (hlen : map.length < 2 ^ 63)
    (h : casPackOpen false (some map) = some p) (hfit : p.entryCount * CAS_PACK_BLOCK + CAS_PACK_BLOCK < 2 ^ 64)
    (htr : ∀ i < p.entryCount, p.entryOffset i + CAS_PACK_BLOCK < 2 ^ 64) : PackSafe cs noBuf p := by
  have hopens := openReads_inside_iff map p hlen h
  rw [← (casPackOpen_some map p h).1] at hopens
  have htail : packIndexSize p.entryCount + CAS_PACK_BLOCK < 2 ^ 64 := by
    unfold packIndexSize
    rw [Nat.mod_eq_of_lt (by omega)]
    exact hfit
  exact ⟨hopens.mpr htail, fun bin _ => findEntry_inside hfit bin, fun bin _ => packRawRegion_inside hfit htr bin,
    lookup_inside hfit htr, foreach_inside hfit, packFsck_inside hfit htr⟩

/-- A file that is written as a pack is safe to read. -/
theorem packSafe_image (cs : Codecs) (noBuf : Bool) (es : List Emitted) (h : PackedOk es) :
    PackSafe cs noBuf (packOf es h) := by
  have hlen := length_packImage es h.bins
  have hsize := h.size
  have hcount := h.count_lt
  refine packSafe_of_fit cs noBuf (packImage es) _ hsize (casPackOpen_image es h) ?_ fun i hi => ?_
  · show es.length * CAS_PACK_BLOCK + CAS_PACK_BLOCK < 2 ^ 64
    unfold CAS_PACK_BLOCK
    omega
  · have hle := trailerAt_le es h i hi
    rw [packOf_entryOffset es h i hi]
    unfold CAS_PACK_BLOCK
    omega

/-- **The readers of a pack stay in its file exactly when its offsets do not wrap**: the size of the index
with the footer is below `2 ^ 64`, and so is the end of every trailer that is indexed. -/
theorem pack_inside_iff (cs : Codecs) (noBuf : Bool) (map : Bytes) (p : Pack) (hlen : map.length < 2 ^ 47)
    (h : casPackOpen false (some map) = some p) :
    PackSafe cs noBuf p ↔ p.entryCount * CAS_PACK_BLOCK + CAS_PACK_BLOCK < 2 ^ 64 ∧
      ∀ i < p.entryCount, p.entryOffset i + CAS_PACK_BLOCK < 2 ^ 64 := by
  have hopens := openReads_inside_iff map p (by omega) h
  obtain ⟨hmap, h64, -, hcount⟩ := casPackOpen_some map p h
  have hcount64 : p.entryCount < 2 ^ 64 := by
    rw [hcount]
    have hlt := loadLe_lt (slice (footerOf map) 8 8)
    have hle := Nat.pow_le_pow_right (show 0 < 256 by omega) (length_slice_le (footerOf map) 8 8)
    exact Nat.lt_of_lt_of_le hlt hle
  constructor
  · intro hsafe
    rw [← hmap] at hopens h64
    have htail := hopens.mp hsafe.opens
    have hfit : p.entryCount * CAS_PACK_BLOCK + CAS_PACK_BLOCK < 2 ^ 64 := by
      by_contra hwrap
      obtain ⟨i, hi, hout⟩ := entry_outside hcount64 htail (Nat.not_lt.mp hwrap)
      exact hout (foreach_visits _ (hsafe.each _) i hi)
    refine ⟨hfit, fun i hi => ?_⟩
    by_contra hwrap
    obtain ⟨hchk, hout⟩ := trailer_outside (p.entryOffset i) (entryOffset_lt p i) (hmap ▸ hlen) h64
      (Nat.not_lt.mp hwrap)
    have hentry := packFsck_visits _ (hsafe.fsck _) i hi
    unfold packFsckEntry at hentry
    simp only [all_bind, if_neg hchk, touch, all_emit] at hentry
    exact hout hentry.2.1
  · rintro ⟨hfit, htr⟩
    exact packSafe_of_fit cs noBuf map p (by omega) h hfit htr

/-- An entry for an empty region. -/
def zeroEmitted : Emitted := ⟨List.replicate 32 0, [], List.replicate 64 0, 0⟩

theorem packedOk_zeroEmitted : PackedOk [zeroEmitted] where
  bins := by simp [zeroEmitted]
  trailers := by simp [zeroEmitted]
  size := by
    rw [length_packImage _ (by simp [zeroEmitted])]
    decide

theorem pack_inside_oneEntry :
    1 * CAS_PACK_BLOCK + CAS_PACK_BLOCK < 2 ^ 64 ∧
      ∀ i < 1, (packOf [zeroEmitted] packedOk_zeroEmitted).entryOffset i + CAS_PACK_BLOCK < 2 ^ 64 :=
  (pack_inside_iff [] false (packImage [zeroEmitted]) (packOf [zeroEmitted] packedOk_zeroEmitted)
    (by rw [length_packImage _ (by simp [zeroEmitted])]; decide)
    (casPackOpen_image _ packedOk_zeroEmitted)).mp (packSafe_image [] false _ packedOk_zeroEmitted)

/-! ### A pack of one footer -/

/-- A file that is a footer and counts `2 ^ 58` entries. -/
def wrappedImage : Bytes := packFooter [] (2 ^ 58)

theorem length_wrappedImage : wrappedImage.length = CAS_PACK_BLOCK := length_packFooter _ _

def wrappedPack : Pack where
  map := wrappedImage
  entryCount := 2 ^ 58
  tail_le := by
    rw [length_wrappedImage]
    decide

theorem casPackOpen_wrapped : casPackOpen false (some wrappedImage) = some wrappedPack := by
  have hft : slice wrappedImage (wrappedImage.length - CAS_PACK_BLOCK) CAS_PACK_BLOCK = wrappedImage := by
    rw [length_wrappedImage, Nat.sub_self]
    exact slice_all _ _ length_wrappedImage.symm
  have hmagic : slice wrappedImage 0 CAS_PACK_MAGIC_LEN = CAS_PACK_FOOTER_MAGIC_V1 := slice_front _ _ _ rfl
  have hcount : loadLe (slice wrappedImage 8 8) = 2 ^ 58 := by
    have h8 : slice wrappedImage 8 8 = storeLe 8 (2 ^ 58) := by
      unfold wrappedImage packFooter
      rw [slice_append_of_eq _ _ 8 0 8 rfl]
      exact slice_front _ _ _ (length_storeLe _ _).symm
    rw [h8, loadLe_storeLe_of_lt _ _ (by decide)]
  have hsum : slice wrappedImage 16 CAS_HASH_LEN = casDigest (packChecked [] (2 ^ 58)) := by
    unfold wrappedImage packFooter
    rw [slice_append_of_eq _ _ 16 8 _ rfl, slice_append_of_eq _ _ 8 0 _ (by simp)]
    exact slice_front _ _ _ (length_casDigest _).symm
  have hchk : slice wrappedImage 0 16 = packChecked [] (2 ^ 58) := by
    unfold wrappedImage packFooter packChecked
    rw [← List.append_assoc, List.nil_append]
    exact slice_front _ _ _ (by simp [CAS_PACK_FOOTER_MAGIC_V1])
  have hindex : wrappedImage.length - packTailSize (2 ^ 58) = 0 := by
    rw [length_wrappedImage]
    decide
  have hlen : (packIndexSize (2 ^ 58) + 16) % 2 ^ 64 = 16 := by decide
  have htail : ¬ packTailSize (2 ^ 58) > wrappedImage.length := by
    rw [length_wrappedImage]
    decide
  unfold casPackOpen
  simp only [Bool.false_eq_true, if_false]
  rw [if_neg (by rw [length_wrappedImage]; decide)]
  simp only [hft, hmagic, hcount, hindex, hlen, hsum, hchk, ne_eq, not_true_eq_false, if_false, dif_neg htail]
  rfl

/-- The first probe of `find_entry` is `2 ^ 63` octets past the index. -/
theorem pack_count_wraps :
    casPackOpen false (some wrappedImage) = some wrappedPack ∧ wrappedImage.length = 64 ∧
      ¬ (findEntryReads wrappedPack (List.replicate 32 0)).All (Region.Inside wrappedImage.length) := by
  refine ⟨casPackOpen_wrapped, length_wrappedImage, fun hall => ?_⟩
  unfold findEntryReads findEntryLoop at hall
  rw [if_pos (by decide)] at hall
  simp only [all_bind, touch, all_emit] at hall
  have hin := hall.1
  unfold Region.Inside Pack.entry at hin
  rw [length_wrappedImage] at hin
  have hmid : (0 + (wrappedPack.entryCount - 0) / 2) * CAS_PACK_BLOCK % 2 ^ 64 = 2 ^ 63 := by decide
  simp only [hmid] at hin
  unfold CAS_PACK_BLOCK at hin
  omega

end Smolvfs
