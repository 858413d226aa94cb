import Mathlib.Algebra.Group.Action.Defs
import Smolvfs.Gc
import Smolvfs.OmapRuns

/-!
# Object maps from any root

`cas_omap_load` takes every directory whose length fits its count.  Afterwards
`cas_omap_get` finds a row by binary search, `cas_omap_foreach` goes through the
rows that count something, and `cas_omap_count` adds the counts up: three views
of rows that nobody has checked.

* `loaded_consistent_iff`: the three agree on one finite map exactly when the rows
  are sound (`RowsSound`); where every row counts something and has a page that
  reads back and is not empty, that is ascending numbers below 2^56 and counts
  that add up; `loaded_unsorted` loads two rows in the wrong order.
-/

namespace Smolvfs

open Octets Directory

/-! ## The views -/

/-- What an iteration that is not stopped gives the callback. -/
def reportedPairs (cs : Codecs) (flt : Faults) (st : Store) (om : Omap) : List (UInt64 × Bytes) :=
  (casOmapForeach (fun id hash pairs => (false, pairs ++ [(id, hash)])) cs flt st om []).2.2

/-- Lookup, iteration and count agree on one finite map. -/
structure Consistent (cs : Codecs) (flt : Faults) (st : Store) (om : Omap) : Prop where
  same : ∀ id hash, (reportedPairs cs flt st om).count (id, hash) = 1 ↔ (casOmapGet cs flt st om id).1 = .ok hash
  ascending : (reportedPairs cs flt st om).Pairwise fun p q => p.1 < q.1
  count : (casOmapCount om).toNat = (reportedPairs cs flt st om).length

/-! ## Rows -/

section
variable (cs : Codecs) (flt : Faults) (st : Store)

/-- The page of a row, empty when it cannot be read. -/
def rowPage (de : OmapDirEntry) : OmapSlots :=
  match pageLoad cs flt st de with
  | .ok pg => pg.slots
  | .error _ => emptySlots

def rowReads (de : OmapDirEntry) : Bool := (pageLoad cs flt st de).isOk

/-- The rows an iteration takes pages from: those that count something, up to the first it cannot read. -/
def countedRows (dir : List OmapDirEntry) : List OmapDirEntry :=
  (dir.takeWhile fun de => decide (de.popCount = 0) || rowReads cs flt st de).filter fun de => decide (0 < de.popCount)

/-- The number of the page whose ids a row reports: that of the row, as far as an id has room for it. -/
def OmapDirEntry.shownNum (de : OmapDirEntry) : Nat := de.pageNum % 2 ^ 56

/-- Rows that make sense: those that count something come in the order of their ids, they are the pages the
binary search finds, slot by slot, and the counts add up to their slots. -/
structure RowsSound (dir : List OmapDirEntry) : Prop where
  ordered : (countedRows cs flt st dir).Pairwise fun a b => ∀ s t, rowPage cs flt st a s ≠ zeroSlot →
    rowPage cs flt st b t ≠ zeroSlot →
      a.shownNum * CAS_OMAP_PAGE_SLOTS + s.1 < b.shownNum * CAS_OMAP_PAGE_SLOTS + t.1
  found : ∀ de ∈ countedRows cs flt st dir, ∀ s, rowPage cs flt st de s ≠ zeroSlot →
    ∃ row, dirEntry dir de.shownNum = some row ∧ rowPage cs flt st row s = rowPage cs flt st de s
  shown : ∀ row n, n < 2 ^ 56 → dirEntry dir n = some row → ∀ s, rowPage cs flt st row s ≠ zeroSlot →
    ∃ de ∈ countedRows cs flt st dir, de.shownNum = n ∧ rowPage cs flt st de s = rowPage cs flt st row s
  counts : (dir.map fun de => de.popCount).sum = ((countedRows cs flt st dir).map fun de => pop (rowPage cs flt st de)).sum

/-- Every row counts something and has a page that reads back with something in it. -/
def NoIdleRow (dir : List OmapDirEntry) : Prop :=
  ∀ de ∈ dir, 0 < de.popCount ∧ rowReads cs flt st de = true ∧ rowPage cs flt st de ≠ emptySlots

/-- Rows in the order of their numbers, which are page numbers, with counts that add up to the slots used. -/
structure RowsAscending (dir : List OmapDirEntry) : Prop where
  ordered : Ordered OmapDirEntry.pageNum dir
  page_lt : ∀ de ∈ dir, de.pageNum < 2 ^ 56
  counts : (dir.map fun de => de.popCount).sum = (dir.map fun de => pop (rowPage cs flt st de)).sum

end

/-! ## What the views see -/

section
variable {cs : Codecs} {flt : Faults} {st : Store} {dir : List OmapDirEntry}

theorem slotId_shownNum (de : OmapDirEntry) (s : Fin CAS_OMAP_PAGE_SLOTS) :
    slotId de.pageNum s = slotId de.shownNum s := by
  apply UInt64.toNat_inj.mp
  unfold slotId OmapDirEntry.shownNum CAS_OMAP_PAGE_SLOTS
  rw [UInt64.toNat_ofNat', UInt64.toNat_ofNat']
  omega

theorem shownNum_lt (de : OmapDirEntry) : de.shownNum < 2 ^ 56 := Nat.mod_lt _ (by decide)

/-- The pairs of the rows an iteration takes pages from. -/
def shownPairs (cs : Codecs) (flt : Faults) (st : Store) (dir : List OmapDirEntry) : List (UInt64 × Bytes) :=
  (countedRows cs flt st dir).flatMap fun de => pagePairs de.pageNum (rowPage cs flt st de)

theorem countedRows_idle (de : OmapDirEntry) (rest : List OmapDirEntry) (h : de.popCount = 0) :
    countedRows cs flt st (de :: rest) = countedRows cs flt st rest := by
  unfold countedRows
  rw [List.takeWhile_cons_of_pos (by simp [h]), List.filter_cons_of_neg (by simp [h])]

theorem countedRows_unread (de : OmapDirEntry) (rest : List OmapDirEntry) (h : de.popCount ≠ 0) (rc : Status)
    (hrc : pageLoad cs flt st de = .error rc) : countedRows cs flt st (de :: rest) = [] := by
  unfold countedRows
  rw [List.takeWhile_cons_of_neg (by simp [h, rowReads, hrc, Except.isOk, Except.toBool])]
  rfl

theorem countedRows_read (de : OmapDirEntry) (rest : List OmapDirEntry) (h : de.popCount ≠ 0)
    (hr : rowReads cs flt st de = true) :
    countedRows cs flt st (de :: rest) = de :: countedRows cs flt st rest := by
  unfold countedRows
  rw [List.takeWhile_cons_of_pos (by simp [hr]), List.filter_cons_of_pos (by simp; omega)]

/-- An iteration gives the callback the pairs of those rows. -/
theorem foreachEntries_shown {σ : Type} (fn : UInt64 → Bytes → σ → Bool × σ) (dir : List OmapDirEntry) (ctx : σ) :
    (foreachEntries fn cs flt st dir ctx).2.2 = (visitPairs fn (shownPairs cs flt st dir) ctx).2 := by
  unfold shownPairs
  induction dir generalizing ctx with
  | nil => rfl
  | cons de rest ih =>
    rw [foreachEntries]
    split
    · next hzero =>
      rw [countedRows_idle de rest hzero]
      exact ih ctx
    · next hne =>
      cases hpg : pageLoad cs flt st de with
      | error rc =>
        rw [countedRows_unread de rest hne rc hpg]
        rfl
      | ok pg =>
        have hpage : rowPage cs flt st de = pg.slots := by
          unfold rowPage
          rw [hpg]
        have hvisit : foreachSlots fn de.pageNum pg.slots (List.finRange CAS_OMAP_PAGE_SLOTS) ctx =
            visitPairs fn (pagePairs de.pageNum pg.slots) ctx := by
          rw [foreachSlots_visit]
          rfl
        rw [countedRows_read de rest hne (by unfold rowReads; rw [hpg]; rfl), List.flatMap_cons, visit_append, hpage]
        dsimp only
        rw [hvisit]
        rcases visitPairs fn (pagePairs de.pageNum pg.slots) ctx with ⟨_ | _, ctx'⟩
        · exact ih ctx'
        · rfl

theorem visit_collect (l acc : List (UInt64 × Bytes)) :
    visitPairs (fun id hash pairs => (false, pairs ++ [(id, hash)])) l acc = (false, acc ++ l) := by
  induction l generalizing acc with
  | nil => rw [visitPairs, List.append_nil]
  | cons p rest ih =>
    rw [visitPairs]
    dsimp only
    rw [ih, List.append_assoc]
    rfl

theorem reportedPairs_eq (om : Omap) : reportedPairs cs flt st om = shownPairs cs flt st om.dir := by
  show (foreachEntries _ cs flt st om.dir []).2.2 = _
  rw [foreachEntries_shown, visit_collect]
  rfl

theorem mem_shownPairs (id : UInt64) (hash : Bytes) :
    (id, hash) ∈ shownPairs cs flt st dir ↔ ∃ de ∈ countedRows cs flt st dir, de.shownNum = idPage id ∧
      rowPage cs flt st de (idSlot id) ≠ zeroSlot ∧ hash = toHex (rowPage cs flt st de (idSlot id)).1 := by
  unfold shownPairs
  rw [List.mem_flatMap]
  constructor
  · rintro ⟨de, hde, hp⟩
    obtain ⟨s, hs, heq⟩ := (mem_pagePairs _ _ _).mp hp
    obtain ⟨rfl, rfl⟩ := Prod.mk.inj heq
    refine ⟨de, hde, ?_⟩
    rw [slotId_shownNum, idPage_slotId _ s (shownNum_lt de), idSlot_slotId _ s (shownNum_lt de)]
    exact ⟨rfl, hs, rfl⟩
  · rintro ⟨de, hde, hn, hs, rfl⟩
    refine ⟨de, hde, (mem_pagePairs _ _ _).mpr ⟨idSlot id, hs, ?_⟩⟩
    rw [slotId_shownNum, hn, slotId_of_id]

theorem get_ok_iff (om : Omap) (id : UInt64) (hash : Bytes) :
    (casOmapGet cs flt st om id).1 = .ok hash ↔ ∃ row, dirEntry om.dir (idPage id) = some row ∧
      rowPage cs flt st row (idSlot id) ≠ zeroSlot ∧ hash = toHex (rowPage cs flt st row (idSlot id)).1 := by
  unfold casOmapGet
  cases hde : dirEntry om.dir (idPage id) with
  | none => simp
  | some row =>
    cases hpg : pageLoad cs flt st row with
    | error rc => simp [rowPage, hpg, emptySlots]
    | ok pg =>
      have hpage : rowPage cs flt st row = pg.slots := by
        unfold rowPage
        rw [hpg]
      simp only [Option.some.injEq, exists_eq_left', hpage, hpg]
      split
      · next hz => simp [hz]
      · next hz =>
        constructor
        · intro h
          exact ⟨hz, (Except.ok.inj h).symm⟩
        · rintro ⟨-, rfl⟩
          rfl

/-- The pairs come in the order of their ids exactly when the rows do. -/
theorem shownPairs_ascending : (shownPairs cs flt st dir).Pairwise (fun p q => p.1 < q.1) ↔
    (countedRows cs flt st dir).Pairwise fun a b => ∀ s t, rowPage cs flt st a s ≠ zeroSlot →
      rowPage cs flt st b t ≠ zeroSlot →
        a.shownNum * CAS_OMAP_PAGE_SLOTS + s.1 < b.shownNum * CAS_OMAP_PAGE_SLOTS + t.1 := by
  have hid : ∀ (de : OmapDirEntry) s, (slotId de.pageNum s).toNat = de.shownNum * CAS_OMAP_PAGE_SLOTS + s.1 := by
    intro de s
    rw [slotId_shownNum]
    exact toNat_slotId _ s (shownNum_lt de)
  have hpage : ∀ de : OmapDirEntry, (pagePairs de.pageNum (rowPage cs flt st de)).Pairwise fun p q => p.1 < q.1 := by
    intro de
    have h := pagePairs_ordered de.shownNum (rowPage cs flt st de) (shownNum_lt de)
    have heq : pagePairs de.pageNum (rowPage cs flt st de) = pagePairs de.shownNum (rowPage cs flt st de) := by
      unfold pagePairs
      apply List.map_congr_left
      intro s _
      rw [slotId_shownNum]
    rw [heq]
    exact h.imp fun hlt => UInt64.lt_iff_toNat_lt.mpr hlt
  unfold shownPairs
  rw [List.pairwise_flatMap]
  constructor
  · rintro ⟨-, h⟩
    apply h.imp
    intro a b hab s t hs ht
    have := UInt64.lt_iff_toNat_lt.mp (hab _ ((mem_pagePairs _ _ _).mpr ⟨s, hs, rfl⟩) _
      ((mem_pagePairs _ _ _).mpr ⟨t, ht, rfl⟩))
    dsimp only at this
    rw [hid, hid] at this
    exact this
  · intro h
    refine ⟨fun de _ => hpage de, h.imp ?_⟩
    intro a b hab p hp q hq
    obtain ⟨s, hs, rfl⟩ := (mem_pagePairs _ _ _).mp hp
    obtain ⟨t, ht, rfl⟩ := (mem_pagePairs _ _ _).mp hq
    rw [UInt64.lt_iff_toNat_lt]
    dsimp only
    rw [hid, hid]
    exact hab s t hs ht

theorem length_shownPairs :
    (shownPairs cs flt st dir).length = ((countedRows cs flt st dir).map fun de => pop (rowPage cs flt st de)).sum := by
  unfold shownPairs pagePairs
  rw [List.length_flatMap]
  simp only [List.length_map]
  rfl

theorem slot_of_hex (v w : OmapSlot) (h : toHex v.1 = toHex w.1) : v = w := Subtype.ext (toHex_injective _ _ h)

/-- The three views agree exactly when the rows are sound. -/
theorem consistent_iff (om : Omap) (hsum : (om.dir.map fun de => de.popCount).sum < 2 ^ 64) :
    Consistent cs flt st om ↔ RowsSound cs flt st om.dir := by
  have hcount : (casOmapCount om).toNat = (om.dir.map fun de => de.popCount).sum := by
    unfold casOmapCount
    rw [UInt64.toNat_ofNat', Nat.mod_eq_of_lt hsum]
  constructor
  · rintro ⟨hsame, hasc, hlen⟩
    rw [reportedPairs_eq] at hsame hasc hlen
    have hnodup : (shownPairs cs flt st om.dir).Nodup := hasc.imp fun hlt heq => by
      rw [heq, UInt64.lt_iff_toNat_lt] at hlt
      exact Nat.lt_irrefl _ hlt
    refine ⟨shownPairs_ascending.mp hasc, ?_, ?_, ?_⟩
    · intro de hde s hs
      have hmem : (slotId de.shownNum s, toHex (rowPage cs flt st de s).1) ∈ shownPairs cs flt st om.dir := by
        rw [mem_shownPairs, idPage_slotId _ s (shownNum_lt de), idSlot_slotId _ s (shownNum_lt de)]
        exact ⟨de, hde, rfl, hs, rfl⟩
      obtain ⟨row, h1, -, h2⟩ := (get_ok_iff om _ _).mp ((hsame _ _).mp (List.count_eq_one_of_mem hnodup hmem))
      rw [idPage_slotId _ s (shownNum_lt de)] at h1
      rw [idSlot_slotId _ s (shownNum_lt de)] at h2
      exact ⟨row, h1, (slot_of_hex _ _ h2).symm⟩
    · intro row n hn hrow s hs
      have hget : (casOmapGet cs flt st om (slotId n s)).1 = .ok (toHex (rowPage cs flt st row s).1) := by
        rw [get_ok_iff, idPage_slotId n s hn, idSlot_slotId n s hn]
        exact ⟨row, hrow, hs, rfl⟩
      have hmem := List.count_pos_iff.mp (by rw [(hsame _ _).mpr hget]; exact Nat.one_pos)
      obtain ⟨de, hde, h1, -, h2⟩ := (mem_shownPairs _ _).mp hmem
      rw [idPage_slotId n s hn] at h1
      rw [idSlot_slotId n s hn] at h2
      exact ⟨de, hde, h1, (slot_of_hex _ _ h2).symm⟩
    · rw [← hcount, hlen, length_shownPairs]
  · rintro ⟨hord, hfound, hshown, hcounts⟩
    have hasc := shownPairs_ascending.mpr hord
    have hnodup : (shownPairs cs flt st om.dir).Nodup := hasc.imp fun hlt heq => by
      rw [heq, UInt64.lt_iff_toNat_lt] at hlt
      exact Nat.lt_irrefl _ hlt
    refine ⟨?_, ?_, ?_⟩
    · intro id hash
      rw [reportedPairs_eq, get_ok_iff]
      constructor
      · intro hone
        have hmem : (id, hash) ∈ shownPairs cs flt st om.dir :=
          List.count_pos_iff.mp (by rw [hone]; exact Nat.one_pos)
        obtain ⟨de, hde, hn, hs, rfl⟩ := (mem_shownPairs _ _).mp hmem
        obtain ⟨row, h1, h2⟩ := hfound de hde _ hs
        rw [hn] at h1
        refine ⟨row, h1, ?_, ?_⟩
        · rw [h2]
          exact hs
        · rw [h2]
      · rintro ⟨row, hrow, hs, rfl⟩
        obtain ⟨de, hde, h1, h2⟩ := hshown row _ (idPage_lt id) hrow _ hs
        apply List.count_eq_one_of_mem hnodup
        rw [mem_shownPairs]
        refine ⟨de, hde, h1, ?_, ?_⟩
        · rw [h2]
          exact hs
        · rw [h2]
    · rw [reportedPairs_eq]
      exact hasc
    · rw [hcount, reportedPairs_eq, length_shownPairs]
      exact hcounts

/-! ## Rows without idle ones -/

theorem countedRows_all (h : NoIdleRow cs flt st dir) : countedRows cs flt st dir = dir := by
  unfold countedRows
  rw [List.takeWhile_eq_self_iff.mpr fun de hde => by simp [(h de hde).2.1],
    List.filter_eq_self.mpr fun de hde => by simpa using (h de hde).1]

theorem exists_used {P : OmapSlots} (h : P ≠ emptySlots) : ∃ s, P s ≠ zeroSlot := by
  by_contra hno
  apply h
  funext s
  by_contra hs
  exact hno ⟨s, hs⟩

theorem dirEntry_some {n : Nat} {row : OmapDirEntry} (h : dirEntry dir n = some row) :
    dir[omapDirFind dir n]? = some row ∧ row.pageNum = n := by
  unfold dirEntry at h
  obtain ⟨h1, h2⟩ := Option.filter_eq_some_iff.mp h
  exact ⟨h1, by simpa using h2⟩

/-- In sound rows without idle ones, each is where the search for its number ends. -/
theorem sound_position (hi : NoIdleRow cs flt st dir) (h : RowsSound cs flt st dir) (i : Nat) (hlt : i < dir.length) :
    omapDirFind dir dir[i].shownNum = i ∧ dir[i].pageNum = dir[i].shownNum := by
  obtain ⟨hord, hfound, -, -⟩ := h
  rw [countedRows_all hi] at hord hfound
  have hmem := List.getElem_mem hlt
  obtain ⟨s, hs⟩ := exists_used (hi _ hmem).2.2
  obtain ⟨row, h1, h2⟩ := hfound _ hmem s hs
  obtain ⟨h3, h4⟩ := dirEntry_some h1
  obtain ⟨hj, hrow⟩ := List.getElem?_eq_some_iff.mp h3
  have hnum : row.shownNum = dir[i].shownNum := by
    unfold OmapDirEntry.shownNum
    rw [h4]
    exact Nat.mod_mod _ _
  -- two rows of one number that use the same slot cannot be in order
  have hsame : omapDirFind dir dir[i].shownNum = i := by
    have hp := List.pairwise_iff_getElem.mp hord
    rcases Nat.lt_trichotomy (omapDirFind dir dir[i].shownNum) i with hlt' | heq | hgt
    · have := hp _ _ hj hlt hlt' s s (by rw [hrow, h2]; exact hs) hs
      rw [hrow, hnum] at this
      omega
    · exact heq
    · have := hp _ _ hlt hj hgt s s hs (by rw [hrow, h2]; exact hs)
      rw [hrow, hnum] at this
      omega
  refine ⟨hsame, ?_⟩
  have hget : dir[omapDirFind dir dir[i].shownNum]? = some dir[i] := by
    rw [hsame]
    exact List.getElem?_eq_getElem hlt
  obtain rfl := Option.some.inj (h3.symm.trans hget)
  exact h4

/-- Without idle rows, sound is ascending. -/
theorem sound_iff_ascending (hi : NoIdleRow cs flt st dir) : RowsSound cs flt st dir ↔ RowsAscending cs flt st dir := by
  constructor
  · intro h
    have hpos := sound_position hi h
    obtain ⟨hord, -, -, hcounts⟩ := h
    rw [countedRows_all hi] at hord hcounts
    refine ⟨?_, ?_, hcounts⟩
    · unfold Ordered
      rw [List.pairwise_iff_getElem] at hord ⊢
      intro i j hli hlj hij
      obtain ⟨s, hs⟩ := exists_used (hi _ (List.getElem_mem hli)).2.2
      obtain ⟨t, ht⟩ := exists_used (hi _ (List.getElem_mem hlj)).2.2
      have hlt := hord i j hli hlj hij s t hs ht
      obtain ⟨h1, h2⟩ := hpos i hli
      obtain ⟨h3, h4⟩ := hpos j hlj
      have hne : dir[i].shownNum ≠ dir[j].shownNum := by
        intro heq
        rw [heq] at h1
        omega
      have hts := t.2
      rw [h2, h4]
      unfold CAS_OMAP_PAGE_SLOTS at hlt hts
      omega
    · intro de hde
      obtain ⟨i, hli, rfl⟩ := List.mem_iff_getElem.mp hde
      rw [(hpos i hli).2]
      exact shownNum_lt _
  · rintro ⟨hord, hlt, hcounts⟩
    have hnum : ∀ de ∈ dir, de.shownNum = de.pageNum := fun de hde => Nat.mod_eq_of_lt (hlt de hde)
    have hentry : ∀ de ∈ dir, dirEntry dir de.pageNum = some de := by
      intro de hde
      unfold dirEntry
      rw [show dir[omapDirFind dir de.pageNum]? = some de from find_of_mem hord de hde]
      simp
    refine ⟨?_, ?_, ?_, ?_⟩
    · rw [countedRows_all hi]
      apply hord.imp_of_mem
      intro a b ha hb hab s t _ _
      have hs := s.2
      rw [hnum a ha, hnum b hb]
      unfold CAS_OMAP_PAGE_SLOTS at hs ⊢
      omega
    · rw [countedRows_all hi]
      intro de hde s _
      exact ⟨de, by rw [hnum de hde]; exact hentry de hde, rfl⟩
    · rw [countedRows_all hi]
      intro row n _ hrow s _
      obtain ⟨h1, rfl⟩ := dirEntry_some hrow
      have hmem := List.mem_of_getElem? h1
      exact ⟨row, hmem, hnum row hmem, rfl⟩
    · rw [countedRows_all hi]
      exact hcounts

end

/-! ## Loads -/

section
variable (cs : Codecs) (flt : Faults) (st : Store) (om : Omap) (root : Bytes)

/-- What is loaded is the rows of the object; what is not leaves the map, memory permitting. -/
theorem load_cases : ((casOmapLoad cs flt st om root).1 = .ok ∧ ∃ data n, n < 2 ^ 31 ∧
      (casOmapLoad cs flt st om root).2.dir = loadDir data n) ∨
    ((casOmapLoad cs flt st om root).1 ≠ .ok ∧
      ((casOmapLoad cs flt st om root).2 = om ∨ (casOmapLoad cs flt st om root).1 = .enomem)) := by
  unfold casOmapLoad
  cases ho : casOpenObject cs flt st root with
  | error rc =>
    refine Or.inr ⟨fun hrc => ?_, Or.inl rfl⟩
    rw [show rc = .ok from hrc] at ho
    exact casOpenObject_ne_ok cs flt st root ho
  | ok obj =>
    obtain ⟨type, data⟩ := obj
    dsimp only
    split
    · exact Or.inr ⟨by simp, Or.inl rfl⟩
    · split
      · exact Or.inr ⟨by simp, Or.inl rfl⟩
      · split
        · exact Or.inr ⟨by simp, Or.inl rfl⟩
        · split
          · exact Or.inr ⟨by simp, Or.inr rfl⟩
          · next hn => exact Or.inl ⟨rfl, data, _, by omega, rfl⟩

/-- The counts of a directory do not overflow their sum. -/
theorem sum_loadDir (data : Bytes) (n : Nat) (hn : n < 2 ^ 31) :
    ((loadDir data n).map fun de => de.popCount).sum < 2 ^ 64 := by
  have hle := List.sum_le_card_nsmul ((loadDir data n).map fun de => de.popCount) (2 ^ 16) ?_
  · have hlen : (loadDir data n).length = n := by simp [loadDir]
    rw [List.length_map, hlen, smul_eq_mul] at hle
    omega
  · intro c hc
    obtain ⟨de, hde, rfl⟩ := List.mem_map.mp hc
    obtain ⟨i, -, rfl⟩ := List.mem_map.mp hde
    have h1 := loadLe_lt (slice data (OMAP_DIR_HEADER_LEN + i * OMAP_DIR_ENTRY_LEN + 40) 2)
    have h2 := length_slice_le data (OMAP_DIR_HEADER_LEN + i * OMAP_DIR_ENTRY_LEN + 40) 2
    have h3 := Nat.pow_le_pow_right (show 0 < 256 by decide) h2
    show loadLe _ ≤ _
    omega

end

/-- **A map loaded from any root.**  Whatever the object and whatever pages can be read, lookup, iteration
and count of the loaded map agree exactly when its rows are sound, which for rows that are all in use is that
they ascend; a load that is refused leaves the map, unless it had no memory for the rows. -/
theorem loaded_consistent_iff (cs : Codecs) (flt : Faults) (st : Store) (om : Omap) (root : Bytes) :
    ((casOmapLoad cs flt st om root).1 = .ok →
      (Consistent cs flt st (casOmapLoad cs flt st om root).2 ↔
          RowsSound cs flt st (casOmapLoad cs flt st om root).2.dir) ∧
        (NoIdleRow cs flt st (casOmapLoad cs flt st om root).2.dir →
          (Consistent cs flt st (casOmapLoad cs flt st om root).2 ↔
            RowsAscending cs flt st (casOmapLoad cs flt st om root).2.dir))) ∧
      ((casOmapLoad cs flt st om root).1 ≠ .ok →
        (casOmapLoad cs flt st om root).2 = om ∨ (casOmapLoad cs flt st om root).1 = .enomem) := by
  rcases load_cases cs flt st om root with ⟨hok, data, n, hn, hdir⟩ | ⟨hne, hkept⟩
  · have hiff : Consistent cs flt st (casOmapLoad cs flt st om root).2 ↔ RowsSound cs flt st _ :=
      consistent_iff (casOmapLoad cs flt st om root).2 (by rw [hdir]; exact sum_loadDir data n hn)
    exact ⟨fun _ => ⟨hiff, fun hi => hiff.trans (sound_iff_ascending hi)⟩, fun h => absurd hok h⟩
  · exact ⟨fun h => absurd h hne, fun _ => hkept⟩

/-! ## A page and a directory -/

def oneSlot : OmapSlot := slotOfHash oneHash zeroSlot

/-- A page with one slot in use. -/
def onePage : OmapSlots := Function.update emptySlots ⟨5, by decide⟩ oneSlot

/-- A row that names the page and counts its slot. -/
def oneRow (n : Nat) : OmapDirEntry := ⟨n, oneSlot, 1, none⟩

/-- A depot with the page, and a directory of such rows. -/
def rowsDepot (nums : List Nat) : Store :=
  (Store.empty.setLoose (toHex oneSlot.1) ⟨rawFile (opageObj onePage), 0⟩).setLoose zeroHash
    ⟨rawFile (tOmap, dirBytes (nums.map oneRow)), 0⟩

theorem oneSlot_ne : oneSlot ≠ zeroSlot := by decide

section
variable (nums : List Nat)

theorem open_onePage : casOpenObject [] noFaults (rowsDepot nums) (toHex oneSlot.1) = .ok (opageObj onePage) := by
  have hs : Storable (opageObj onePage) :=
    storable_of_small tOpage _ (by decide) (by decide) (by decide) (by rw [length_pageBytes]; decide)
  unfold rowsDepot
  rw [casOpenObject_setLoose_ne _ _ _ _ _ _ (by decide),
    casOpenObject_of_loose [] _ _ _ (by decide) rfl (setLoose_lookup_self _ _ _)]
  exact looseRead_rawFile _ hs []

theorem pageLoad_oneRow (n : Nat) : pageLoad [] noFaults (rowsDepot nums) (oneRow n) = .ok ⟨onePage, 1, false⟩ := by
  have ho := open_onePage nums
  unfold pageLoad oneRow
  simp only [ho, opageObj]
  rw [if_neg, pageSlots_pageBytes]
  simp [length_pageBytes]

theorem live_oneRows : liveEntries (nums.map oneRow) = nums.map oneRow := by
  unfold liveEntries
  rw [List.filter_eq_self]
  intro de hde
  obtain ⟨n, -, rfl⟩ := List.mem_map.mp hde
  rfl

theorem load_rowsDepot (hlen : nums.length < 2 ^ 20) (hn : ∀ n ∈ nums, n < 2 ^ 64) (om : Omap) :
    casOmapLoad [] noFaults (rowsDepot nums) om zeroHash = (.ok, ⟨nums.map oneRow, nums.length⟩) := by
  have hlive := live_oneRows nums
  have hl := length_dirBytes (nums.map oneRow)
  have hc := dirBytes_count (nums.map oneRow) (by rw [hlive, List.length_map]; omega)
  have hrows := loadDir_dirBytes (nums.map oneRow) (by
    rw [hlive]
    intro de hde
    obtain ⟨n, hn', rfl⟩ := List.mem_map.mp hde
    exact ⟨hn n hn', show 1 < 2 ^ 16 by decide⟩)
  rw [hlive, List.length_map] at hl hc hrows
  have hs : Storable (tOmap, dirBytes (nums.map oneRow)) :=
    storable_of_small tOmap _ (by decide) (by decide) (by decide) (by
      rw [hl]
      unfold OMAP_DIR_HEADER_LEN OMAP_DIR_ENTRY_LEN
      omega)
  have ho : casOpenObject [] noFaults (rowsDepot nums) zeroHash = .ok (tOmap, dirBytes (nums.map oneRow)) := by
    unfold rowsDepot
    rw [casOpenObject_of_loose [] _ _ _ (by decide) rfl (setLoose_lookup_self _ _ _)]
    exact looseRead_rawFile _ hs []
  have hback : (nums.map oneRow).map OmapDirEntry.unloaded = nums.map oneRow := by
    rw [List.map_map]
    rfl
  unfold casOmapLoad
  simp only [ho]
  rw [if_neg (by rw [hl]; simp), if_neg (by rw [dirBytes_magic]; simp), hc, if_neg (by rw [hl]; simp),
    if_neg (by omega)]
  show (Status.ok, (⟨loadDir _ _, _⟩ : Omap)) = _
  rw [hrows, hback]

theorem rowPage_oneRow (n : Nat) : rowPage [] noFaults (rowsDepot nums) (oneRow n) = onePage := by
  unfold rowPage
  rw [pageLoad_oneRow]

theorem noIdle_oneRows : NoIdleRow [] noFaults (rowsDepot nums) (nums.map oneRow) := by
  intro de hde
  obtain ⟨n, -, rfl⟩ := List.mem_map.mp hde
  refine ⟨Nat.one_pos, ?_, ?_⟩
  · unfold rowReads
    rw [pageLoad_oneRow]
    rfl
  · rw [rowPage_oneRow]
    intro he
    have := congrFun he ⟨5, by decide⟩
    exact oneSlot_ne this

end

/-- One row, of page 0: the map is consistent. -/
theorem loaded_one_row : (casOmapLoad [] noFaults (rowsDepot [0]) casOmapNew zeroHash).1 = .ok ∧
    Consistent [] noFaults (rowsDepot [0]) (casOmapLoad [] noFaults (rowsDepot [0]) casOmapNew zeroHash).2 := by
  have hload := load_rowsDepot [0] (by decide) (by decide) casOmapNew
  have hok := congrArg Prod.fst hload
  have hdir : (casOmapLoad [] noFaults (rowsDepot [0]) casOmapNew zeroHash).2.dir = [0].map oneRow :=
    congrArg (fun out => out.2.dir) hload
  have hiff := ((loaded_consistent_iff [] noFaults (rowsDepot [0]) casOmapNew zeroHash).1 hok).2
  rw [hdir] at hiff
  refine ⟨hok, (hiff (noIdle_oneRows [0])).mpr ⟨List.pairwise_singleton _ _, ?_, ?_⟩⟩
  · intro de hde
    obtain rfl := List.mem_singleton.mp hde
    show 0 < 2 ^ 56
    decide
  · have hpop : pop onePage = 1 := by
      unfold onePage
      rw [pop_fill _ _ _ rfl oneSlot_ne, pop_empty]
    simp only [List.map_cons, List.map_nil, rowPage_oneRow, hpop]
    rfl

/-- Two rows, of page 1 and then of page 0: the load takes them, and id 5 is reported but not found. -/
theorem loaded_unsorted : ∃ om, casOmapLoad [] noFaults (rowsDepot [1, 0]) casOmapNew zeroHash = (.ok, om) ∧
    (5, toHex oneSlot.1) ∈ reportedPairs [] noFaults (rowsDepot [1, 0]) om ∧
    (casOmapGet [] noFaults (rowsDepot [1, 0]) om 5).1 = .error .enotfound ∧
    ¬ Consistent [] noFaults (rowsDepot [1, 0]) om := by
  have hidle := noIdle_oneRows [1, 0]
  refine ⟨_, load_rowsDepot [1, 0] (by decide) (by decide) casOmapNew, ?_, rfl, ?_⟩
  · rw [reportedPairs_eq, mem_shownPairs, countedRows_all hidle]
    refine ⟨oneRow 0, by simp, rfl, ?_, ?_⟩
    · rw [rowPage_oneRow]
      exact oneSlot_ne
    · rw [rowPage_oneRow]
      rfl
  · rw [consistent_iff _ (by decide), sound_iff_ascending hidle]
    rintro ⟨hord, -, -⟩
    have h10 : (oneRow 1).pageNum < (oneRow 0).pageNum := (List.pairwise_cons.mp hord).1 _ (by simp)
    exact absurd h10 (by decide)

end Smolvfs
