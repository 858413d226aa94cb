import Mathlib.Algebra.Order.BigOperators.Group.List
import Mathlib.Data.Set.Card
import Smolvfs.OmapPages

/-!
# What an object map holds

`OmapHolds W strict om C`: the map stands for the pages `C`, page number by page
number, when the objects in `W` are what was stored for it.  The page of an
entry is the cached one; an entry with no page, or a clean one, names its
page's object, which is in `W`, and its count is the page's.  With `strict` the
entry's count is the page's while the page is dirty too, and the address of a
page to be read is not the one that means "no page yet".

Each operation has one lemma: what it returns, and what the map holds then.

* `get_holds`, `put_holds`, `del_holds`: one id, with the objects readable;
* `foreach_holds`, `count_holds`: all ids.
-/

namespace Smolvfs

open Octets Directory

/-! ## The mapping -/

/-- Pages by number. -/
abbrev Pages := Nat → OmapSlots

/-- What an id is mapped to. -/
def mapping (C : Pages) (id : UInt64) : Option Bytes :=
  if C (idPage id) (idSlot id) = zeroSlot then none else some (toHex (C (idPage id) (idSlot id)).1)

/-- One slot changed. -/
def setSlot (C : Pages) (id : UInt64) (v : OmapSlot) : Pages :=
  Function.update C (idPage id) (Function.update (C (idPage id)) (idSlot id) v)

theorem setSlot_self (C : Pages) (id : UInt64) (v : OmapSlot) : setSlot C id v (idPage id) (idSlot id) = v := by
  rw [setSlot, Function.update_self, Function.update_self]

theorem setSlot_ne (C : Pages) (id other : UInt64) (v : OmapSlot) (h : other ≠ id) :
    setSlot C id v (idPage other) (idSlot other) = C (idPage other) (idSlot other) := by
  unfold setSlot
  by_cases hp : idPage other = idPage id
  · have hs : idSlot other ≠ idSlot id := by
      intro hs
      apply h
      rw [← slotId_of_id other, ← slotId_of_id id, hp, hs]
    rw [hp, Function.update_self, Function.update_of_ne hs]
  · rw [Function.update_of_ne hp]

theorem mapping_fill (C : Pages) (id : UInt64) (v : OmapSlot) (hv : v ≠ zeroSlot) :
    mapping (setSlot C id v) = Function.update (mapping C) id (some (toHex v.1)) := by
  funext other
  by_cases h : other = id
  · subst h
    rw [Function.update_self, mapping, setSlot_self, if_neg hv]
  · rw [Function.update_of_ne h, mapping, mapping, setSlot_ne C id other v h]

theorem mapping_free (C : Pages) (id : UInt64) :
    mapping (setSlot C id zeroSlot) = Function.update (mapping C) id none := by
  funext other
  by_cases h : other = id
  · subst h
    rw [Function.update_self, mapping, setSlot_self, if_pos rfl]
  · rw [Function.update_of_ne h, mapping, mapping, setSlot_ne C id other zeroSlot h]

theorem mapping_eq_none (C : Pages) (id : UInt64) : mapping C id = none ↔ C (idPage id) (idSlot id) = zeroSlot := by
  unfold mapping
  split <;> simp_all

/-- Pages with no number of their own are empty. -/
def Numbered (C : Pages) : Prop := ∀ n, 2 ^ 56 ≤ n → C n = emptySlots

/-- The mapping determines the pages. -/
theorem mapping_injective (C D : Pages) (hC : Numbered C) (hD : Numbered D) (h : mapping C = mapping D) : C = D := by
  funext n s
  by_cases hn : n < 2 ^ 56
  · have hid := congrFun h (slotId n s)
    unfold mapping at hid
    rw [idPage_slotId n s hn, idSlot_slotId n s hn] at hid
    split at hid
    · next hz =>
      split at hid
      · next hz' => rw [hz, hz']
      · cases hid
    · split at hid
      · cases hid
      · exact Subtype.ext (toHex_injective _ _ (Option.some.inj hid))
  · rw [hC n (by omega), hD n (by omega)]

/-! ## Holding -/

/-- Objects by the address they were stored at. -/
abbrev Filed := List (Bytes × Object)

/-- What was filed reads back. -/
def Readable (cs : Codecs) (flt : Faults) (st : Store) (W : Filed) : Prop :=
  ∀ p ∈ W, casOpenObject cs flt st p.1 = .ok p.2

/-- The entry has no change that is not stored. -/
def OmapDirEntry.Clean (de : OmapDirEntry) : Prop := ∀ pg, de.cached = some pg → pg.dirty = false

/-- The page of an entry is `P`. -/
structure EntryHolds (W : Filed) (strict : Bool) (de : OmapDirEntry) (P : OmapSlots) : Prop where
  page_lt : de.pageNum < 2 ^ 56
  cached : ∀ pg, de.cached = some pg → pg.slots = P ∧ pg.popCount = pop P
  clean : de.Clean → de.popCount = pop P ∧ de.pageHash = objSlot (opageObj P) ∧ (toHex de.pageHash.1, opageObj P) ∈ W
  exact : strict = true → de.popCount = pop P ∧ (de.cached = none → de.pageHash ≠ zeroSlot)

structure OmapHolds (W : Filed) (strict : Bool) (om : Omap) (C : Pages) : Prop where
  dir : Represents OmapDirEntry.pageNum (EntryHolds W strict) emptySlots om.dir C
  cap : om.dir.length ≤ om.dirCap
  cap_lt : om.dirCap < 2 ^ 31

variable {cs : Codecs} {flt : Faults} {st : Store} {W : Filed} {strict : Bool} {om : Omap} {C : Pages}

theorem EntryHolds.mono {W' : Filed} (hw : ∀ p ∈ W, p ∈ W') {de : OmapDirEntry} {P : OmapSlots}
    (h : EntryHolds W strict de P) : EntryHolds W' strict de P where
  page_lt := h.page_lt
  cached := h.cached
  clean := fun hc => ⟨(h.clean hc).1, (h.clean hc).2.1, hw _ (h.clean hc).2.2⟩
  exact := h.exact

theorem OmapHolds.mono {W' : Filed} (hw : ∀ p ∈ W, p ∈ W') (h : OmapHolds W strict om C) : OmapHolds W' strict om C :=
  ⟨h.dir.mono fun _ _ => EntryHolds.mono hw, h.cap, h.cap_lt⟩

theorem holds_new : OmapHolds W strict casOmapNew fun _ => emptySlots := ⟨represents_nil, Nat.le_refl _, by decide⟩

theorem OmapHolds.numbered (h : OmapHolds W strict om C) : Numbered C := by
  intro n hn
  apply h.dir.absent
  intro de hde hk
  have := (h.dir.entry de hde).page_lt
  omega

theorem OmapHolds.setEntry (h : OmapHolds W strict om C) {pos n : Nat} {de : OmapDirEntry} (hd : om.dir[pos]? = some de)
    (hk : de.pageNum = n) (de' : OmapDirEntry) (hk' : de'.pageNum = n) (P : OmapSlots)
    (hP : EntryHolds W strict de' P) :
    OmapHolds W strict (om.setEntry pos de') (Function.update C n P) where
  dir := by
    subst hk
    exact h.dir.set pos de de' hd hk' P hP
  cap := by
    show (om.dir.set pos de').length ≤ om.dirCap
    rw [List.length_set]
    exact h.cap
  cap_lt := h.cap_lt

/-- The page's entry is found where it is, or the page is empty. -/
theorem dirEntry_cases (h : OmapHolds W strict om C) (n : Nat) :
    (∃ de, dirEntry om.dir n = some de ∧ om.dir[omapDirFind om.dir n]? = some de ∧ de.pageNum = n ∧
      EntryHolds W strict de (C n)) ∨
      (dirEntry om.dir n = none ∧ (∀ de ∈ om.dir, de.pageNum ≠ n) ∧ C n = emptySlots) := by
  rcases find_cases h.dir.ordered n with ⟨de, hd, rfl⟩ | ⟨hno, habs⟩
  · refine Or.inl ⟨de, ?_, hd, rfl, h.dir.entry de (List.mem_of_getElem? hd)⟩
    unfold dirEntry
    rw [show om.dir[omapDirFind om.dir de.pageNum]? = some de from hd]
    simp
  · refine Or.inr ⟨?_, habs, h.dir.absent n habs⟩
    unfold dirEntry
    rw [Option.filter_eq_none_iff]
    intro de hd
    simpa using hno de hd

/-- A page that is held is loaded as it is. -/
theorem pageLoad_holds (hr : Readable cs flt st W) {de : OmapDirEntry} {P : OmapSlots} (h : EntryHolds W strict de P) :
    ∃ pg, pageLoad cs flt st de = .ok pg ∧ pg.slots = P ∧ pg.popCount = pop P ∧
      EntryHolds W strict { de with cached := some pg } P := by
  cases hc : de.cached with
  | some pg =>
    obtain ⟨h1, h2⟩ := h.cached pg hc
    refine ⟨pg, by unfold pageLoad; rw [hc], h1, h2, ?_⟩
    rw [← hc]
    exact h
  | none =>
    obtain ⟨hcount, hhash, hW⟩ := h.clean (by intro pg hpg; rw [hc] at hpg; cases hpg)
    refine ⟨⟨P, pop P, false⟩, ?_, rfl, rfl, ?_⟩
    · unfold pageLoad
      rw [hc]
      simp only [hr _ hW, opageObj]
      rw [if_neg, pageSlots_pageBytes, hcount]
      simp [length_pageBytes]
    · refine ⟨h.page_lt, ?_, fun _ => ⟨hcount, hhash, hW⟩, fun _ => ⟨hcount, fun hn => by cases hn⟩⟩
      intro pg hpg
      obtain rfl := Option.some.inj hpg
      exact ⟨rfl, rfl⟩

/-- An entry with a changed page. -/
theorem entryHolds_dirty (de : OmapDirEntry) (P : OmapSlots) (count : Nat) (hlt : de.pageNum < 2 ^ 56)
    (hc : strict = true → count = pop P) :
    EntryHolds W strict { de with popCount := count, cached := some ⟨P, pop P, true⟩ } P where
  page_lt := hlt
  cached := by
    intro pg hpg
    obtain rfl := Option.some.inj hpg
    exact ⟨rfl, rfl⟩
  clean := fun h => absurd (h _ rfl) (by simp)
  exact := fun hs => ⟨hc hs, fun hn => by cases hn⟩

/-! ## Reading one id -/

theorem get_holds (hr : Readable cs flt st W) (h : OmapHolds W strict om C) (id : UInt64) :
    (casOmapGet cs flt st om id).1 =
        (match mapping C id with
          | some hash => .ok hash
          | none => .error .enotfound) ∧
      OmapHolds W strict (casOmapGet cs flt st om id).2 C := by
  unfold casOmapGet
  rcases dirEntry_cases h (idPage id) with ⟨de, hde, hpos, hk, hP⟩ | ⟨hno, -, hC⟩
  · obtain ⟨pg, hpg, hslots, -, hP'⟩ := pageLoad_holds hr hP
    have hset := h.setEntry hpos hk { de with cached := some pg } hk _ hP'
    rw [Function.update_eq_self] at hset
    simp only [hde, hpg, hslots]
    unfold mapping
    split
    · exact ⟨rfl, hset⟩
    · exact ⟨rfl, hset⟩
  · have hz : mapping C id = none := by
      rw [mapping_eq_none, hC]
      rfl
    rw [hno, hz]
    exact ⟨rfl, h⟩

/-! ## Changing one id -/

theorem incr16_pop (P : OmapSlots) : incr16 (pop P) = pop P + 1 := by
  have := pop_le P
  unfold incr16
  unfold CAS_OMAP_PAGE_SLOTS at this
  omega

theorem decr16_pop (P : OmapSlots) (n : Nat) (h : n + 1 = pop P) : decr16 (pop P) = n := by
  have := pop_le P
  unfold decr16
  unfold CAS_OMAP_PAGE_SLOTS at this
  omega

theorem del_holds (hr : Readable cs flt st W) (h : OmapHolds W strict om C) (id : UInt64) :
    (mapping C id = none ∧ (casOmapDel cs flt st om id).1 = .enotfound ∧
        OmapHolds W strict (casOmapDel cs flt st om id).2 C) ∨
      (mapping C id ≠ none ∧ (casOmapDel cs flt st om id).1 = .ok ∧
        OmapHolds W strict (casOmapDel cs flt st om id).2 (setSlot C id zeroSlot)) := by
  rw [Ne, mapping_eq_none]
  unfold casOmapDel
  rcases dirEntry_cases h (idPage id) with ⟨de, hde, hpos, hk, hP⟩ | ⟨hno, -, hC⟩
  · obtain ⟨pg, hpg, hslots, hcount, hP'⟩ := pageLoad_holds hr hP
    simp only [hde, hpg, hslots, hcount]
    by_cases hz : C (idPage id) (idSlot id) = zeroSlot
    · have hset := h.setEntry hpos hk { de with cached := some pg } hk _ hP'
      rw [Function.update_eq_self] at hset
      rw [if_pos hz]
      exact Or.inl ⟨hz, rfl, hset⟩
    · have hfree := pop_free (C (idPage id)) (idSlot id) hz
      have hdecr := decr16_pop (C (idPage id)) _ hfree
      rw [if_neg hz, hdecr]
      refine Or.inr ⟨hz, rfl, ?_⟩
      have hP'' : EntryHolds W strict _ _ := entryHolds_dirty de
        (Function.update (C (idPage id)) (idSlot id) zeroSlot) (decr16 de.popCount) hP.page_lt ?_
      · have hset := h.setEntry hpos hk _ (by exact hk) _ hP''
        unfold setSlot
        exact hset
      · intro hs
        rw [(hP.exact hs).1, hdecr]
  · rw [hno, hC]
    exact Or.inl ⟨rfl, rfl, h⟩

/-- A page without an entry gets one, room permitting. -/
theorem dirInsert_new (h : OmapHolds W strict om C) (n : Nat) (hno : dirEntry om.dir n = none) :
    (dirInsert om n = .error .enomem ∧ 2 ^ 30 ≤ om.dir.length) ∨
      ∃ cap, dirInsert om n = .ok (⟨om.dir.insertIdx (omapDirFind om.dir n) ⟨n, zeroSlot, 0, none⟩, cap⟩,
          ⟨n, zeroSlot, 0, none⟩) ∧
        om.dir.length + 1 ≤ cap ∧ cap < 2 ^ 31 := by
  have hcap := h.cap
  have hlt := h.cap_lt
  unfold dirInsert
  rw [hno]
  dsimp only
  split
  · next hroom => exact Or.inr ⟨om.dirCap, rfl, hroom, hlt⟩
  · next hfull =>
    by_cases h0 : om.dirCap = 0
    · rw [if_pos h0]
      exact Or.inr ⟨16, rfl, by omega, by decide⟩
    · rw [if_neg h0]
      split
      · next hnew => exact Or.inr ⟨om.dirCap * 2, rfl, by omega, hnew⟩
      · next hbig => exact Or.inl ⟨rfl, by omega⟩

/-- The entry a put works on, and the page it has then; what the put leaves in the entry's place. -/
theorem pageEnsure_holds (hr : Readable cs flt st W) (h : OmapHolds W strict om C) (id : UInt64) :
    (pageEnsure cs flt st om id = (om, .error .enomem) ∧ 2 ^ 30 ≤ om.dir.length) ∨
      ∃ om' de pg, pageEnsure cs flt st om id = (om', .ok (de, pg)) ∧
        de.pageNum = idPage id ∧ pg.popCount = pop pg.slots ∧
        (strict = true → pg.slots = C (idPage id) ∧ de.popCount = pop pg.slots) ∧
        ∀ de' P, de'.pageNum = idPage id → EntryHolds W strict de' P →
          OmapHolds W strict (om'.setEntry (omapDirFind om.dir (idPage id)) de') (Function.update C (idPage id) P) := by
  unfold pageEnsure
  rcases dirEntry_cases h (idPage id) with ⟨de, hde, hpos, hk, hP⟩ | ⟨hno, habs, hC⟩
  · have hins : dirInsert om (idPage id) = .ok (om, de) := by
      unfold dirInsert
      rw [hde]
    have hput : ∀ de' P, de'.pageNum = idPage id → EntryHolds W strict de' P →
        OmapHolds W strict (om.setEntry (omapDirFind om.dir (idPage id)) de') (Function.update C (idPage id) P) :=
      fun de' P hk' hP' => h.setEntry hpos hk de' hk' P hP'
    rw [hins]
    dsimp only
    split
    · next hfresh =>
      refine Or.inr ⟨om, de, newPage, rfl, hk, pop_empty.symm, ?_, hput⟩
      intro hs
      exact absurd hfresh.2 ((hP.exact hs).2 hfresh.1)
    · obtain ⟨pg, hpg, hslots, hcount, -⟩ := pageLoad_holds hr hP
      rw [hpg]
      refine Or.inr ⟨om, de, pg, rfl, hk, by rw [hslots, hcount], ?_, hput⟩
      intro hs
      rw [hslots]
      exact ⟨rfl, (hP.exact hs).1⟩
  · rcases dirInsert_new h (idPage id) hno with ⟨hins, hbig⟩ | ⟨cap, hins, hcap, hlt⟩
    · rw [hins]
      exact Or.inl ⟨rfl, hbig⟩
    · rw [hins]
      dsimp only
      rw [if_pos ⟨rfl, rfl⟩]
      refine Or.inr ⟨_, _, _, rfl, rfl, pop_empty.symm, ?_, ?_⟩
      · intro _
        rw [hC]
        exact ⟨rfl, pop_empty.symm⟩
      · intro de' P hk' hP'
        have hle : omapDirFind om.dir (idPage id) ≤ om.dir.length := (find_spec h.dir.ordered (idPage id)).2.2
        have hins := h.dir.insert de' (by rw [hk']; exact habs) P hP'
        rw [hk'] at hins
        refine ⟨?_, ?_, hlt⟩
        · show Represents _ _ _ ((om.dir.insertIdx _ _).set _ _) _
          rw [set_insertIdx _ _ _ hle]
          exact hins
        · show ((om.dir.insertIdx _ _).set _ _).length ≤ cap
          rw [List.length_set, List.length_insertIdx_of_le_length hle]
          exact hcap

theorem put_holds (hr : Readable cs flt st W) (h : OmapHolds W strict om C) (id : UInt64) (hash : Bytes)
    (hv : validHash hash = true) (hz : hash ≠ zeroHash) :
    ((casOmapPut cs flt st om id hash).1 = .enomem ∧ (casOmapPut cs flt st om id hash).2 = om ∧
        2 ^ 30 ≤ om.dir.length) ∨
      ((casOmapPut cs flt st om id hash).1 = .ok ∧ ∃ C', OmapHolds W strict (casOmapPut cs flt st om id hash).2 C' ∧
        (strict = true → C' = setSlot C id (slotOfHash hash zeroSlot))) := by
  unfold casOmapPut
  rw [if_neg (by simp [hv])]
  dsimp only
  rcases pageEnsure_holds hr h id with ⟨he, hbig⟩ | ⟨om', de, pg, he, hk, hcount, hexact, hput⟩
  · rw [he]
    exact Or.inl ⟨rfl, rfl, hbig⟩
  · rw [he]
    dsimp only
    have hval := slotOfHash_dst hash hv (pg.slots (idSlot id)) zeroSlot
    have hne : slotOfHash hash zeroSlot ≠ zeroSlot := fun h0 => hz ((slotOfHash_eq_zero hash hv zeroSlot).mp h0)
    -- both counts go up exactly when the slot was empty, as the population does
    have hpop : (if decide (pg.slots (idSlot id) = zeroSlot) = true then incr16 (pop pg.slots) else pop pg.slots) =
        pop (Function.update pg.slots (idSlot id) (slotOfHash hash zeroSlot)) := by
      by_cases h0 : pg.slots (idSlot id) = zeroSlot
      · rw [if_pos (by simpa using h0), incr16_pop, pop_fill _ _ _ h0 hne]
      · rw [if_neg (by simpa using h0), pop_change _ _ _ h0 hne]
    rw [hcount, hval, hpop]
    refine Or.inr ⟨rfl, _, hput _ _ hk (entryHolds_dirty de _ _ (hk ▸ idPage_lt id) ?_), ?_⟩
    · intro hs
      rw [(hexact hs).2, hpop]
    · intro hs
      rw [(hexact hs).1]
      rfl

/-! ## All ids -/

/-- The ids of one page, with their hashes, in order. -/
def pagePairs (n : Nat) (P : OmapSlots) : List (UInt64 × Bytes) :=
  (usedSlots P).map fun s => (slotId n s, toHex (P s).1)

/-- The mapped ids with their hashes, page by page. -/
def mappedPairs (dir : List OmapDirEntry) (C : Pages) : List (UInt64 × Bytes) :=
  dir.flatMap fun de => pagePairs de.pageNum (C de.pageNum)

theorem mem_pagePairs (n : Nat) (P : OmapSlots) (p : UInt64 × Bytes) :
    p ∈ pagePairs n P ↔ ∃ s, P s ≠ zeroSlot ∧ p = (slotId n s, toHex (P s).1) := by
  unfold pagePairs
  rw [List.mem_map]
  constructor
  · rintro ⟨s, hs, rfl⟩
    exact ⟨s, (mem_usedSlots P s).mp hs, rfl⟩
  · rintro ⟨s, hs, rfl⟩
    exact ⟨s, (mem_usedSlots P s).mpr hs, rfl⟩

/-- **The pairs are the mapping.** -/
theorem mem_mappedPairs (h : OmapHolds W strict om C) (id : UInt64) (hash : Bytes) :
    (id, hash) ∈ mappedPairs om.dir C ↔ mapping C id = some hash := by
  unfold mappedPairs
  rw [List.mem_flatMap]
  constructor
  · rintro ⟨de, hde, hp⟩
    obtain ⟨s, hs, heq⟩ := (mem_pagePairs _ _ _).mp hp
    obtain ⟨rfl, rfl⟩ := Prod.mk.inj heq
    have hlt := (h.dir.entry de hde).page_lt
    unfold mapping
    rw [idPage_slotId _ s hlt, idSlot_slotId _ s hlt, if_neg hs]
  · intro hm
    unfold mapping at hm
    split at hm
    · cases hm
    · next hne =>
      obtain rfl := Option.some.inj hm
      rcases dirEntry_cases h (idPage id) with ⟨de, -, hpos, hk, -⟩ | ⟨-, -, hC⟩
      · refine ⟨de, List.mem_of_getElem? hpos, (mem_pagePairs _ _ _).mpr ⟨idSlot id, ?_, ?_⟩⟩
        · rw [hk]
          exact hne
        · rw [hk, slotId_of_id]
      · rw [hC] at hne
        exact absurd rfl hne

theorem pagePairs_ordered (n : Nat) (P : OmapSlots) (hn : n < 2 ^ 56) :
    (pagePairs n P).Pairwise fun p q => p.1.toNat < q.1.toNat := by
  apply List.pairwise_map.mpr
  have h : (usedSlots P).Pairwise (· < ·) := List.Pairwise.filter _ (List.pairwise_lt_finRange _)
  apply h.imp
  intro s t hst
  have : s.1 < t.1 := hst
  simp only [toNat_slotId n s hn, toNat_slotId n t hn]
  omega

/-- The pairs come in the order of their ids. -/
theorem mappedPairs_ordered (h : OmapHolds W strict om C) :
    (mappedPairs om.dir C).Pairwise fun p q => p.1.toNat < q.1.toNat := by
  have hlt : ∀ de ∈ om.dir, de.pageNum < 2 ^ 56 := fun de hde => (h.dir.entry de hde).page_lt
  have hord : om.dir.Pairwise fun a b => a.pageNum < b.pageNum := h.dir.ordered
  unfold mappedPairs
  revert hlt hord
  generalize om.dir = dir
  intro hlt hord
  induction dir with
  | nil => exact List.Pairwise.nil
  | cons de rest ih =>
    obtain ⟨hfirst, hrest⟩ := List.pairwise_cons.mp hord
    rw [List.flatMap_cons, List.pairwise_append]
    refine ⟨pagePairs_ordered _ _ (hlt de (by simp)), ih (fun d hd => hlt d (by simp [hd])) hrest, ?_⟩
    intro p hp q hq
    obtain ⟨d, hd, hq⟩ := List.mem_flatMap.mp hq
    obtain ⟨s, -, rfl⟩ := (mem_pagePairs _ _ _).mp hp
    obtain ⟨t, -, rfl⟩ := (mem_pagePairs _ _ _).mp hq
    have h1 := hfirst d hd
    have h2 := s.2
    simp only [toNat_slotId _ s (hlt de (by simp)), toNat_slotId _ t (hlt d (by simp [hd]))]
    unfold CAS_OMAP_PAGE_SLOTS at h2 ⊢
    omega

theorem length_mappedPairs (dir : List OmapDirEntry) :
    (mappedPairs dir C).length = (dir.map fun de => pop (C de.pageNum)).sum := by
  unfold mappedPairs pagePairs
  rw [List.length_flatMap]
  simp only [List.length_map]
  rfl

/-- **The count** is the number of mapped ids. -/
theorem count_holds (h : OmapHolds W true om C) :
    (casOmapCount om).toNat = Set.ncard {id | mapping C id ≠ none} := by
  have hsum : (om.dir.map fun de => de.popCount).sum = (mappedPairs om.dir C).length := by
    rw [length_mappedPairs]
    congr 1
    apply List.map_congr_left
    intro de hde
    exact ((h.dir.entry de hde).exact rfl).1
  have hnodup : ((mappedPairs om.dir C).map Prod.fst).Nodup := by
    apply List.pairwise_map.mpr
    apply (mappedPairs_ordered h).imp
    intro p q hpq heq
    rw [heq] at hpq
    exact Nat.lt_irrefl _ hpq
  have hset : {id | mapping C id ≠ none} = (((mappedPairs om.dir C).map Prod.fst).toFinset : Set UInt64) := by
    ext id
    simp only [Set.mem_ofPred_eq, List.coe_toFinset, List.mem_map]
    constructor
    · intro hne
      obtain ⟨hash, hm⟩ := Option.ne_none_iff_exists'.mp hne
      exact ⟨(id, hash), (mem_mappedPairs h id hash).mpr hm, rfl⟩
    · rintro ⟨⟨id', hash⟩, hm, rfl⟩
      rw [(mem_mappedPairs h id' hash).mp hm]
      exact Option.some_ne_none hash
  have hle : (mappedPairs om.dir C).length ≤ om.dir.length * CAS_OMAP_PAGE_SLOTS := by
    rw [length_mappedPairs]
    have := List.sum_le_card_nsmul (om.dir.map fun de => pop (C de.pageNum)) CAS_OMAP_PAGE_SLOTS ?_
    · simpa using this
    · intro n hn
      obtain ⟨de, -, rfl⟩ := List.mem_map.mp hn
      exact pop_le _
  have hcap := h.cap
  have hlt := h.cap_lt
  rw [hset, Set.ncard_coe_finset, List.toFinset_card_of_nodup hnodup, List.length_map, casOmapCount, hsum,
    UInt64.toNat_ofNat', Nat.mod_eq_of_lt]
  unfold CAS_OMAP_PAGE_SLOTS at hle
  omega

/-! ## Visiting all ids -/

section
variable {σ : Type} (fn : UInt64 → Bytes → σ → Bool × σ)

/-- The callback given pair after pair, until it asks to stop. -/
def visitPairs : List (UInt64 × Bytes) → σ → Bool × σ
  | [], ctx => (false, ctx)
  | p :: rest, ctx =>
    match fn p.1 p.2 ctx with
    | (true, ctx) => (true, ctx)
    | (false, ctx) => visitPairs rest ctx

theorem visit_append (l l' : List (UInt64 × Bytes)) (ctx : σ) :
    visitPairs fn (l ++ l') ctx =
      match visitPairs fn l ctx with
      | (true, ctx) => (true, ctx)
      | (false, ctx) => visitPairs fn l' ctx := by
  induction l generalizing ctx with
  | nil => rfl
  | cons p rest ih =>
    rw [List.cons_append, visitPairs, visitPairs]
    rcases fn p.1 p.2 ctx with ⟨_ | _, ctx'⟩
    · exact ih ctx'
    · rfl

theorem foreachSlots_visit (n : Nat) (P : OmapSlots) (l : List (Fin CAS_OMAP_PAGE_SLOTS)) (ctx : σ) :
    foreachSlots fn n P l ctx =
      visitPairs fn ((l.filter fun s => decide (P s ≠ zeroSlot)).map fun s => (slotId n s, toHex (P s).1)) ctx := by
  induction l generalizing ctx with
  | nil => rfl
  | cons s rest ih =>
    rw [foreachSlots]
    by_cases hs : P s = zeroSlot
    · rw [if_pos hs, List.filter_cons_of_neg (by simpa using hs), ih]
    · rw [if_neg hs, List.filter_cons_of_pos (by simpa using hs), List.map_cons, visitPairs]
      rcases fn (slotId n s) (toHex (P s).1) ctx with ⟨_ | _, ctx'⟩
      · exact ih ctx'
      · rfl

/-- The entries after an iteration: the same pages, more of them loaded. -/
theorem foreachEntries_holds (hr : Readable cs flt st W) (dir : List OmapDirEntry)
    (h : ∀ de ∈ dir, EntryHolds W strict de (C de.pageNum)) (ctx : σ) :
    (foreachEntries fn cs flt st dir ctx).1 = .ok ∧
      List.Forall₂ (fun a b => b.pageNum = a.pageNum ∧ EntryHolds W strict b (C a.pageNum)) dir
        (foreachEntries fn cs flt st dir ctx).2.1 ∧
      (strict = true → (foreachEntries fn cs flt st dir ctx).2.2 = (visitPairs fn (mappedPairs dir C) ctx).2) := by
  have hsame : ∀ l : List OmapDirEntry, (∀ de ∈ l, EntryHolds W strict de (C de.pageNum)) →
      List.Forall₂ (fun a b => b.pageNum = a.pageNum ∧ EntryHolds W strict b (C a.pageNum)) l l := by
    intro l hl
    exact List.forall₂_same.mpr fun de hde => ⟨rfl, hl de hde⟩
  induction dir generalizing ctx with
  | nil => exact ⟨rfl, .nil, fun _ => rfl⟩
  | cons de rest ih =>
    have hP := h de (by simp)
    have hrest : ∀ d ∈ rest, EntryHolds W strict d (C d.pageNum) := fun d hd => h d (by simp [hd])
    have hpairs : mappedPairs (de :: rest) C = pagePairs de.pageNum (C de.pageNum) ++ mappedPairs rest C :=
      List.flatMap_cons
    rw [foreachEntries]
    split
    · next hzero =>
      obtain ⟨h1, h2, h3⟩ := ih hrest ctx
      refine ⟨h1, .cons ⟨rfl, hP⟩ h2, ?_⟩
      intro hs
      have hempty : usedSlots (C de.pageNum) = [] := by
        rw [← List.length_eq_zero_iff]
        exact (hP.exact hs).1.symm.trans hzero
      rw [hpairs, pagePairs, hempty]
      exact h3 hs
    · obtain ⟨pg, hpg, hslots, -, hP'⟩ := pageLoad_holds hr hP
      have hvisit : foreachSlots fn de.pageNum pg.slots (List.finRange CAS_OMAP_PAGE_SLOTS) ctx =
          visitPairs fn (pagePairs de.pageNum (C de.pageNum)) ctx := by
        rw [foreachSlots_visit, hslots]
        rfl
      rw [hpg]
      dsimp only
      rw [hvisit, hpairs, visit_append]
      rcases visitPairs fn (pagePairs de.pageNum (C de.pageNum)) ctx with ⟨_ | _, ctx'⟩
      · obtain ⟨h1, h2, h3⟩ := ih hrest ctx'
        exact ⟨h1, .cons ⟨rfl, hP'⟩ h2, h3⟩
      · exact ⟨rfl, .cons ⟨rfl, hP'⟩ (hsame rest hrest), fun _ => rfl⟩

/-- **An iteration** gives the callback the mapped pairs in order and loads pages. -/
theorem foreach_holds (hr : Readable cs flt st W) (h : OmapHolds W strict om C) (ctx : σ) :
    (casOmapForeach fn cs flt st om ctx).1 = .ok ∧ OmapHolds W strict (casOmapForeach fn cs flt st om ctx).2.1 C ∧
      (strict = true → (casOmapForeach fn cs flt st om ctx).2.2 = (visitPairs fn (mappedPairs om.dir C) ctx).2) := by
  obtain ⟨h1, h2, h3⟩ := foreachEntries_holds fn hr om.dir h.dir.entry ctx
  refine ⟨h1, ⟨h.dir.forall₂ h2, ?_, h.cap_lt⟩, h3⟩
  · show (foreachEntries fn cs flt st om.dir ctx).2.1.length ≤ om.dirCap
    rw [← h2.length_eq]
    exact h.cap

end

end Smolvfs
