import Mathlib.Data.Fintype.Card
import Smolvfs.Omap
import Smolvfs.RawObject

/-!
# Pages and directories as octets

What the store keeps of an object map: a page as its 256 slots in a row, the
directory as rows of 48 octets.

* `pageSlots_pageBytes`, `loadDir_dirBytes`: both read back as they were written;
* `toHex_slotOfHash`: a hash goes through a slot and comes back in lower case;
* `pop_fill`, `pop_change`, `pop_free`: the number of slots in use, one slot on.
-/

namespace Smolvfs

open Octets

/-! ## OmapSlots -/

theorem omapSlotAt_val (data : Bytes) (off : Nat) (h : off + CAS_HASH_LEN ≤ data.length) :
    (omapSlotAt data off).1 = slice data off CAS_HASH_LEN := by
  show (slice data off CAS_HASH_LEN ++ zeroSlot.1).take CAS_HASH_LEN = _
  have hl := length_slice data off CAS_HASH_LEN h
  rw [List.take_append_of_le_length (by omega), List.take_of_length_le (by omega)]

theorem omapSlotAt_self (v : OmapSlot) : omapSlotAt v.1 0 = v := by
  apply Subtype.ext
  rw [omapSlotAt_val v.1 0 (by rw [v.2]; omega), slice_all _ _ v.2.symm]

/-- A hash the code wrote, decoded into a slot. -/
theorem slotOfHash_toHex (v dst : OmapSlot) : slotOfHash (toHex v.1) dst = v := by
  unfold slotOfHash
  rw [casHexDecode_toHex]
  exact omapSlotAt_self v

/-- A hash as it comes back from a slot. -/
theorem toHex_slotOfHash (hash : Bytes) (hv : validHash hash = true) (dst : OmapSlot) :
    toHex (slotOfHash hash dst).1 = hash.map lowerDigit := by
  obtain ⟨bin, hd, hl⟩ := casHexDecode_of_valid hash hv
  have hs : slotOfHash hash dst = ⟨bin, hl⟩ := by
    unfold slotOfHash
    rw [hd]
    exact omapSlotAt_self ⟨bin, hl⟩
  rw [hs]
  exact toHex_casHexDecode hash bin hd

theorem slotOfHash_dst (hash : Bytes) (hv : validHash hash = true) (dst dst' : OmapSlot) :
    slotOfHash hash dst = slotOfHash hash dst' := by
  apply Subtype.ext
  apply toHex_injective
  rw [toHex_slotOfHash hash hv dst, toHex_slotOfHash hash hv dst']

/-- Only the all-zero hash makes a slot look empty. -/
theorem slotOfHash_eq_zero (hash : Bytes) (hv : validHash hash = true) (dst : OmapSlot) :
    slotOfHash hash dst = zeroSlot ↔ hash = zeroHash := by
  have hz : toHex zeroSlot.1 = zeroHash := by decide
  constructor
  · intro h
    have h1 := toHex_slotOfHash hash hv dst
    rw [h, hz] at h1
    have h2 : ∀ c ∈ hash, c = 48 := by
      intro c hc
      have h3 : lowerDigit c ∈ zeroHash := h1 ▸ List.mem_map_of_mem hc
      have h4 : lowerDigit c = 48 := List.eq_of_mem_replicate h3
      unfold lowerDigit at h4
      split at h4
      · next hr =>
        have := congrArg UInt8.toNat h4
        rw [UInt8.toNat_add] at this
        have h32 : (32 : UInt8).toNat = 32 := rfl
        have h48 : (48 : UInt8).toNat = 48 := rfl
        omega
      · exact h4
    exact List.eq_replicate_iff.mpr ⟨((validHash_iff hash).mp hv).1, h2⟩
  · rintro rfl
    apply Subtype.ext
    apply toHex_injective
    rw [toHex_slotOfHash zeroHash hv dst, hz]
    decide

/-! ## Pages -/

theorem length_pageBytes (P : OmapSlots) : (pageBytes P).length = CAS_OMAP_PAGE_SIZE := by
  unfold pageBytes
  rw [length_flatMap_const _ _ CAS_HASH_LEN fun s _ => (P s).2, List.length_finRange]
  rfl

/-- **A page reads back.** -/
theorem pageSlots_pageBytes (P : OmapSlots) : pageSlots (pageBytes P) = P := by
  funext s
  apply Subtype.ext
  have hin : s.1 * CAS_HASH_LEN + CAS_HASH_LEN ≤ (pageBytes P).length := by
    rw [length_pageBytes, CAS_OMAP_PAGE_SIZE, ← Nat.succ_mul]
    exact Nat.mul_le_mul_right _ s.2
  show (omapSlotAt (pageBytes P) (s.1 * CAS_HASH_LEN)).1 = _
  rw [omapSlotAt_val _ _ hin]
  have h := slice_flatMap (List.finRange CAS_OMAP_PAGE_SLOTS) (fun s => (P s).1) CAS_HASH_LEN
    (fun s _ => (P s).2) s.1 (by rw [List.length_finRange]; exact s.2)
  rw [List.getElem_finRange] at h
  exact h

/-- The object a page is stored as. -/
def opageObj (P : OmapSlots) : Object := (tOpage, pageBytes P)

/-- The digest an object is addressed by, as a slot. -/
def objSlot (obj : Object) : OmapSlot := ⟨objBin obj, length_digest2 _ _⟩

theorem casPutObject_addr (flt : Faults) (st st' : Store) (type : CStr) (data hash : Bytes) (now : Int)
    (h : casPutObject flt st type data now = .ok (st', hash)) : hash = toHex (objSlot (type, data)).1 := by
  unfold casPutObject at h
  cases hf : formatHeader type data.length with
  | none => simp [hf] at h
  | some hdr =>
    obtain ⟨rfl, -⟩ := formatHeader_spec type data.length hdr hf
    simp only [hf] at h
    split at h
    · cases h
    · split at h
      · exact (Prod.mk.inj (Except.ok.inj h)).2.symm
      · cases hs : storeFile flt st (toHex (digest2 (headerText type data.length ++ [0]) data))
            (data ++ mkTrailer CAS_PACK_TRAILER_MAGIC (headerText type data.length ++ [0])) now with
        | error e => simp [hs, Except.map] at h
        | ok s =>
          rw [hs] at h
          exact (Prod.mk.inj (Except.ok.inj h)).2.symm

/-! ## Populations -/

/-- The slots in use, in order. -/
def usedSlots (P : OmapSlots) : List (Fin CAS_OMAP_PAGE_SLOTS) :=
  (List.finRange CAS_OMAP_PAGE_SLOTS).filter fun s => decide (P s ≠ zeroSlot)

/-- How many slots are in use. -/
def pop (P : OmapSlots) : Nat := (usedSlots P).length

theorem mem_usedSlots (P : OmapSlots) (s : Fin CAS_OMAP_PAGE_SLOTS) : s ∈ usedSlots P ↔ P s ≠ zeroSlot := by
  simp [usedSlots]

theorem pop_eq_card (P : OmapSlots) : pop P = (Finset.univ.filter fun s => P s ≠ zeroSlot).card := rfl

theorem pop_le (P : OmapSlots) : pop P ≤ CAS_OMAP_PAGE_SLOTS := by
  unfold pop usedSlots
  exact (List.length_filter_le _ _).trans (by rw [List.length_finRange])

theorem pop_eq_zero (P : OmapSlots) : pop P = 0 ↔ P = emptySlots := by
  unfold pop
  rw [List.length_eq_zero_iff, List.eq_nil_iff_forall_not_mem]
  simp only [mem_usedSlots, not_not]
  exact ⟨fun h => funext h, fun h s => congrFun h s⟩

theorem pop_empty : pop emptySlots = 0 := (pop_eq_zero _).mpr rfl

section
variable (P : OmapSlots) (s : Fin CAS_OMAP_PAGE_SLOTS) (v : OmapSlot)

theorem used_update_ne (hv : v ≠ zeroSlot) : (Finset.univ.filter fun t => Function.update P s v t ≠ zeroSlot) =
    insert s (Finset.univ.filter fun t => P t ≠ zeroSlot) := by
  ext t
  by_cases ht : t = s
  · subst ht
    simp [hv]
  · simp [ht]

/-- Filling an empty slot. -/
theorem pop_fill (hs : P s = zeroSlot) (hv : v ≠ zeroSlot) : pop (Function.update P s v) = pop P + 1 := by
  rw [pop_eq_card, used_update_ne P s v hv, Finset.card_insert_of_notMem (by simp [hs]), ← pop_eq_card]

/-- Changing a slot in use. -/
theorem pop_change (hs : P s ≠ zeroSlot) (hv : v ≠ zeroSlot) : pop (Function.update P s v) = pop P := by
  rw [pop_eq_card, used_update_ne P s v hv, Finset.insert_eq_of_mem (by simp [hs]), ← pop_eq_card]

/-- Freeing a slot in use. -/
theorem pop_free (hs : P s ≠ zeroSlot) : pop (Function.update P s zeroSlot) + 1 = pop P := by
  have h := pop_fill (Function.update P s zeroSlot) s (P s) (Function.update_self ..) hs
  rw [Function.update_idem, Function.update_eq_self] at h
  exact h.symm

end

/-! ## Ids -/

theorem slotId_of_id (id : UInt64) : slotId (idPage id) (idSlot id) = id := by
  have h : idPage id * CAS_OMAP_PAGE_SLOTS + (idSlot id).1 = id.toNat := Nat.div_add_mod' id.toNat _
  unfold slotId
  rw [h, UInt64.ofNat_toNat]

section
variable (n : Nat) (s : Fin CAS_OMAP_PAGE_SLOTS) (hn : n < 2 ^ 56)
include hn

theorem toNat_slotId : (slotId n s).toNat = n * CAS_OMAP_PAGE_SLOTS + s.1 := by
  have hs := s.2
  unfold slotId
  rw [UInt64.toNat_ofNat', Nat.mod_eq_of_lt]
  unfold CAS_OMAP_PAGE_SLOTS at hs ⊢
  omega

theorem idPage_slotId : idPage (slotId n s) = n := by
  unfold idPage
  rw [toNat_slotId n s hn, Nat.mul_comm, Nat.mul_add_div (by decide), Nat.div_eq_of_lt s.2, Nat.add_zero]

theorem idSlot_slotId : idSlot (slotId n s) = s := by
  apply Fin.ext
  show (slotId n s).toNat % CAS_OMAP_PAGE_SLOTS = s.1
  rw [toNat_slotId n s hn, Nat.mul_comm, Nat.mul_add_mod, Nat.mod_eq_of_lt s.2]

end

theorem idPage_lt (id : UInt64) : idPage id < 2 ^ 56 := by
  have h := id.toNat_lt
  unfold idPage CAS_OMAP_PAGE_SLOTS
  omega

/-! ## Directories -/

theorem length_dirRow (de : OmapDirEntry) : (dirRow de).length = OMAP_DIR_ENTRY_LEN := by
  simp [dirRow, de.pageHash.2, OMAP_DIR_ENTRY_LEN, CAS_HASH_LEN]

/-- The entry as a later load sees it: the page yet to be read. -/
def OmapDirEntry.unloaded (de : OmapDirEntry) : OmapDirEntry := { de with cached := none }

theorem loadRow_dirRow (de : OmapDirEntry) (hn : de.pageNum < 2 ^ 64) (hc : de.popCount < 2 ^ 16) :
    loadRow (dirRow de) 0 = de.unloaded := by
  have h1 : slice (dirRow de) 0 8 = storeLe 8 de.pageNum := by
    unfold dirRow
    rw [List.append_assoc, List.append_assoc]
    exact slice_front _ _ _ (length_storeLe _ _).symm
  have h2 : slice (dirRow de) 8 CAS_HASH_LEN = de.pageHash.1 := by
    unfold dirRow
    rw [List.append_assoc (_ ++ _)]
    exact slice_middle _ _ _ _ _ (length_storeLe _ _).symm de.pageHash.2.symm
  have h3 : slice (dirRow de) 40 2 = storeLe 2 de.popCount := by
    refine slice_middle _ _ _ _ _ ?_ (length_storeLe _ _).symm
    rw [List.length_append, length_storeLe, de.pageHash.2]
    rfl
  have h4 : omapSlotAt (dirRow de) 8 = de.pageHash := by
    apply Subtype.ext
    rw [omapSlotAt_val _ _ (by rw [length_dirRow]; decide)]
    exact h2
  unfold loadRow OmapDirEntry.unloaded
  simp only [Nat.zero_add]
  rw [h1, h3, h4, loadLe_storeLe_of_lt 8 _ (by omega), loadLe_storeLe_of_lt 2 _ (by omega)]

/-- A row is read from its own octets. -/
theorem loadRow_slice (data : Bytes) (off : Nat) :
    loadRow data off = loadRow (slice data off OMAP_DIR_ENTRY_LEN) 0 := by
  have hslot : omapSlotAt (slice data off OMAP_DIR_ENTRY_LEN) 8 = omapSlotAt data (off + 8) := by
    apply Subtype.ext
    show List.take _ (slice (slice data off OMAP_DIR_ENTRY_LEN) 8 CAS_HASH_LEN ++ _) = _
    rw [slice_slice data off OMAP_DIR_ENTRY_LEN 8 CAS_HASH_LEN (by decide)]
    rfl
  unfold loadRow
  simp only [Nat.zero_add]
  rw [hslot, slice_slice data off OMAP_DIR_ENTRY_LEN 0 8 (by decide),
    slice_slice data off OMAP_DIR_ENTRY_LEN 40 2 (by decide)]
  rfl

/-- The entries that have something mapped. -/
def liveEntries (dir : List OmapDirEntry) : List OmapDirEntry := dir.filter fun de => decide (0 < de.popCount)

/-- The entries of a root object, as `cas_omap_load` reads them. -/
def loadDir (data : Bytes) (n : Nat) : List OmapDirEntry :=
  (List.range n).map fun i => loadRow data (OMAP_DIR_HEADER_LEN + i * OMAP_DIR_ENTRY_LEN)

section
variable (dir : List OmapDirEntry)

theorem dirBytes_eq :
    dirBytes dir = (OMAP_DIR_MAGIC ++ storeLe 4 (liveEntries dir).length) ++ (liveEntries dir).flatMap dirRow := rfl

theorem length_dirBytes :
    (dirBytes dir).length = OMAP_DIR_HEADER_LEN + (liveEntries dir).length * OMAP_DIR_ENTRY_LEN := by
  have hm : OMAP_DIR_MAGIC.length = 4 := by decide
  rw [dirBytes_eq, List.length_append, List.length_append, length_storeLe, hm,
    length_flatMap_const _ _ OMAP_DIR_ENTRY_LEN fun de _ => length_dirRow de]
  rfl

theorem dirBytes_magic : slice (dirBytes dir) 0 4 = OMAP_DIR_MAGIC := by
  rw [dirBytes_eq, List.append_assoc]
  exact slice_front _ _ _ (by decide)

theorem dirBytes_count (hn : (liveEntries dir).length < 2 ^ 32) :
    loadLe (slice (dirBytes dir) 4 4) = (liveEntries dir).length := by
  rw [dirBytes_eq, slice_middle _ _ _ 4 4 (by decide) (length_storeLe _ _).symm]
  exact loadLe_storeLe_of_lt 4 _ (by omega)

/-- **A directory reads back**: the live entries, with no page loaded. -/
theorem loadDir_dirBytes (hd : ∀ de ∈ liveEntries dir, de.pageNum < 2 ^ 64 ∧ de.popCount < 2 ^ 16) :
    loadDir (dirBytes dir) (liveEntries dir).length = (liveEntries dir).map OmapDirEntry.unloaded := by
  apply List.ext_getElem
  · simp [loadDir]
  intro i h1 h2
  have hi : i < (liveEntries dir).length := by simpa using h2
  have hpre : (OMAP_DIR_MAGIC ++ storeLe 4 (liveEntries dir).length).length = OMAP_DIR_HEADER_LEN := by
    rw [List.length_append, length_storeLe]
    rfl
  have hrow : slice (dirBytes dir) (OMAP_DIR_HEADER_LEN + i * OMAP_DIR_ENTRY_LEN) OMAP_DIR_ENTRY_LEN =
      dirRow (liveEntries dir)[i] := by
    rw [dirBytes_eq, ← hpre, slice_append_add]
    exact slice_flatMap _ _ _ (fun de _ => length_dirRow de) i hi
  obtain ⟨hn, hc⟩ := hd _ (List.getElem_mem hi)
  simp only [loadDir, List.getElem_map, List.getElem_range]
  rw [loadRow_slice, hrow]
  exact loadRow_dirRow _ hn hc

end

end Smolvfs
