import Smolvfs.OmapMap

/-!
# Snapshots of an object map

What `cas_omap_store` files and what `cas_omap_load` gets back from it.

* `store_holds`: storing changes no page, failed or not;
* `snapshot_eq`: the root object is a function of the pages;
* `load_saved`: a root in the store gives back the pages of the time it was stored.
-/

namespace Smolvfs

open Octets Directory

variable {cs : Codecs} {flt : Faults} {st : Store} {W : Filed} {strict : Bool} {om : Omap} {C : Pages}

/-! ## Storing the pages -/

/-- What an entry files: its page, when that is loaded and clean. -/
def OmapDirEntry.filed (de : OmapDirEntry) : Option (Bytes × Object) :=
  (de.cached.filter fun pg => !pg.dirty).map fun pg => (toHex de.pageHash.1, opageObj pg.slots)

/-- The pages that are in the store as they are in memory. -/
def filedPages (dir : List OmapDirEntry) : Filed := dir.filterMap OmapDirEntry.filed

theorem mem_filedPages (dir : List OmapDirEntry) (p : Bytes × Object) :
    p ∈ filedPages dir ↔ ∃ de ∈ dir, de.filed = some p := List.mem_filterMap

/-- An entry as `cas_omap_store` leaves it when its page was put. -/
def OmapDirEntry.stored (de : OmapDirEntry) (pg : OmapPage) : OmapDirEntry := { de with
  pageHash := objSlot (opageObj pg.slots)
  popCount := pg.popCount
  cached := some { pg with dirty := false } }

theorem stored_filed (de : OmapDirEntry) (pg : OmapPage) :
    (de.stored pg).filed = some (toHex (objSlot (opageObj pg.slots)).1, opageObj pg.slots) := rfl

theorem stored_clean (de : OmapDirEntry) (pg : OmapPage) : (de.stored pg).Clean := by
  intro pg' hpg
  obtain rfl := Option.some.inj hpg
  rfl

theorem stored_holds {W' : Filed} (de : OmapDirEntry) (pg : OmapPage) (P : OmapSlots) (h : EntryHolds W strict de P)
    (hc : de.cached = some pg) (hW : (toHex (objSlot (opageObj pg.slots)).1, opageObj pg.slots) ∈ W') :
    EntryHolds W' strict (de.stored pg) P := by
  obtain ⟨rfl, hcount⟩ := h.cached pg hc
  refine ⟨h.page_lt, ?_, fun _ => ⟨hcount, rfl, hW⟩, fun _ => ⟨hcount, fun hn => by cases hn⟩⟩
  intro pg' hpg
  obtain rfl := Option.some.inj hpg
  exact ⟨rfl, hcount⟩

/-- One entry of `storePages`. -/
theorem storePages_cons (flt : Faults) (now : Int) (st : Store) (de : OmapDirEntry) (rest : List OmapDirEntry) :
    (de.Clean ∧ storePages flt now st (de :: rest) =
        ((storePages flt now st rest).1, (storePages flt now st rest).2.1, de :: (storePages flt now st rest).2.2)) ∨
      (∃ rc, rc ≠ .ok ∧ storePages flt now st (de :: rest) = (rc, st, de :: rest)) ∨
      ∃ pg st', de.cached = some pg ∧ storePages flt now st (de :: rest) =
        ((storePages flt now st' rest).1, (storePages flt now st' rest).2.1,
          de.stored pg :: (storePages flt now st' rest).2.2) := by
  rw [storePages]
  cases hdirty : de.cached.filter fun pg => pg.dirty with
  | none =>
    refine Or.inl ⟨?_, rfl⟩
    intro pg hpg
    have := Option.filter_eq_none_iff.mp hdirty pg hpg
    simpa using this
  | some pg =>
    obtain ⟨hcached, -⟩ := Option.filter_eq_some_iff.mp hdirty
    cases hput : casPutObject flt st tOpage (pageBytes pg.slots) now with
    | error rc =>
      refine Or.inr (Or.inl ⟨rc, ?_, ?_⟩)
      · rintro rfl
        exact casPutObject_ne_ok flt st _ _ now hput
      · simp only [hput]
    | ok out =>
      obtain ⟨st', hash⟩ := out
      have haddr := casPutObject_addr flt st st' tOpage _ hash now hput
      refine Or.inr (Or.inr ⟨pg, st', hcached, ?_⟩)
      simp only [hput]
      rw [haddr, slotOfHash_toHex]
      rfl

/-- **The pages are put**, each entry standing for its page before and after. -/
theorem storePages_holds (flt : Faults) (W' : Filed) (now : Int) (hw : ∀ p ∈ W, p ∈ W') (st : Store)
    (dir : List OmapDirEntry)
    (h : ∀ de ∈ dir, EntryHolds W strict de (C de.pageNum))
    (hfiled : ∀ p ∈ filedPages (storePages flt now st dir).2.2, p ∈ W') :
    List.Forall₂ (fun a b => b.pageNum = a.pageNum ∧ EntryHolds W' strict b (C a.pageNum)) dir
        (storePages flt now st dir).2.2 ∧
      ((storePages flt now st dir).1 = .ok → ∀ de ∈ (storePages flt now st dir).2.2, de.Clean) := by
  have hall : ∀ l : List OmapDirEntry, (∀ de ∈ l, EntryHolds W strict de (C de.pageNum)) →
      List.Forall₂ (fun a b => b.pageNum = a.pageNum ∧ EntryHolds W' strict b (C a.pageNum)) l l := by
    intro l hl
    exact List.forall₂_same.mpr fun de hde => ⟨rfl, (hl de hde).mono hw⟩
  have hsub : ∀ de l, (∀ p ∈ filedPages (de :: l), p ∈ W') → ∀ p ∈ filedPages l, p ∈ W' := by
    intro de l hl p hp
    obtain ⟨d, hd, hdp⟩ := (mem_filedPages l p).mp hp
    exact hl p ((mem_filedPages _ p).mpr ⟨d, by simp [hd], hdp⟩)
  induction dir generalizing st with
  | nil => exact ⟨.nil, fun _ de hde => by cases hde⟩
  | cons de rest ih =>
    have hP := h de (by simp)
    have hrest : ∀ d ∈ rest, EntryHolds W strict d (C d.pageNum) := fun d hd => h d (by simp [hd])
    rcases storePages_cons flt now st de rest with ⟨hclean, heq⟩ | ⟨rc, hrc, heq⟩ |
      ⟨pg, st', hcached, heq⟩
    · rw [heq] at hfiled ⊢
      obtain ⟨h1, h2⟩ := ih st hrest (hsub _ _ hfiled)
      refine ⟨.cons ⟨rfl, hP.mono hw⟩ h1, ?_⟩
      intro hok d hd
      rcases List.mem_cons.mp hd with rfl | hd
      · exact hclean
      · exact h2 hok d hd
    · rw [heq]
      exact ⟨hall _ h, fun hok => absurd hok hrc⟩
    · rw [heq] at hfiled ⊢
      obtain ⟨h1, h2⟩ := ih st' hrest (hsub _ _ hfiled)
      have hW := hfiled _ ((mem_filedPages _ _).mpr ⟨de.stored pg, by simp, stored_filed de pg⟩)
      refine ⟨.cons ⟨rfl, stored_holds de pg _ hP hcached hW⟩ h1, ?_⟩
      intro hok d hd
      rcases List.mem_cons.mp hd with rfl | hd
      · exact stored_clean de pg
      · exact h2 hok d hd

/-! ## Storing the map -/

/-- What a store files: the pages that are clean then, and the directory when it got that far. -/
def storeFiles (out : Except Status Bytes × Store × Omap) : Filed :=
  filedPages out.2.2.dir ++
    match out.1 with
    | .ok root => [(root, (tOmap, dirBytes out.2.2.dir))]
    | .error _ => []

/-- The directory as a load finds it. -/
def savedDir (dir : List OmapDirEntry) : List OmapDirEntry := (liveEntries dir).map OmapDirEntry.unloaded

/-- A root whose object lists the pages `C`. -/
def SavedRoot (W : Filed) (strict : Bool) (root : Bytes) (C : Pages) : Prop :=
  ∃ dir, (root, (tOmap, dirBytes dir)) ∈ W ∧ dir.length < 2 ^ 31 ∧ (∀ de ∈ dir, de.Clean) ∧
    Represents OmapDirEntry.pageNum (EntryHolds W strict) emptySlots dir C ∧
    (strict = true → ∀ n, C n ≠ emptySlots → objSlot (opageObj (C n)) ≠ zeroSlot)

theorem casOmapStore_eq (flt : Faults) (st : Store) (om : Omap) (now : Int) :
    (casOmapStore flt st om now).2.2 = { om with dir := (storePages flt now st om.dir).2.2 } ∧
      ∀ root, (casOmapStore flt st om now).1 = .ok root →
        (storePages flt now st om.dir).1 = .ok ∧
          root = toHex (objSlot (tOmap, dirBytes (storePages flt now st om.dir).2.2)).1 := by
  unfold casOmapStore
  rcases storePages flt now st om.dir with ⟨rc, st', dir⟩
  cases rc with
  | ok =>
    dsimp only
    cases hput : casPutObject flt st' tOmap (dirBytes dir) now with
    | error rc => exact ⟨rfl, fun root hroot => by cases hroot⟩
    | ok out =>
      obtain ⟨st'', hash⟩ := out
      refine ⟨rfl, fun root hroot => ⟨rfl, ?_⟩⟩
      obtain rfl := Except.ok.inj hroot
      exact casPutObject_addr flt st' st'' tOmap _ hash now hput
  | _ => exact ⟨rfl, fun root hroot => by cases hroot⟩

/-- **A store** changes no page, and leaves all of them in the store when it succeeds. -/
theorem store_holds (flt : Faults) (st : Store) (h : OmapHolds W strict om C) (now : Int) :
    OmapHolds (W ++ storeFiles (casOmapStore flt st om now)) strict (casOmapStore flt st om now).2.2 C ∧
      ∀ root, (casOmapStore flt st om now).1 = .ok root →
        ∀ de ∈ (casOmapStore flt st om now).2.2.dir, de.Clean := by
  obtain ⟨hom, hroot⟩ := casOmapStore_eq flt st om now
  obtain ⟨h1, h2⟩ := storePages_holds flt (W ++ storeFiles (casOmapStore flt st om now)) now
    (fun p hp => List.mem_append_left _ hp) st om.dir h.dir.entry (by
      intro p hp
      apply List.mem_append_right
      apply List.mem_append_left
      rw [hom]
      exact hp)
  rw [hom]
  refine ⟨⟨h.dir.forall₂ h1, ?_, h.cap_lt⟩, fun root hr => h2 (hroot root hr).1⟩
  show (storePages flt now st om.dir).2.2.length ≤ om.dirCap
  rw [← h1.length_eq]
  exact h.cap

/-! ## A store that nothing stops -/

theorem casPutObject_noFaults (st : Store) (type : CStr) (data : Bytes) (now : Int) (hp : Packable (type, data)) :
    ∃ out, casPutObject noFaults st type data now = .ok out := by
  have hheader : formatHeader type data.length = some (headerText type data.length ++ [0]) := hp.header
  obtain ⟨-, -, -, hle⟩ := formatHeader_spec type data.length _ hheader
  unfold casPutObject
  rw [hheader]
  dsimp only
  rw [if_neg (by unfold CAS_PACK_HEADER_LEN; omega)]
  split
  · exact ⟨_, rfl⟩
  · exact ⟨_, rfl⟩

theorem storePages_noFaults (now : Int) (st : Store) (dir : List OmapDirEntry) :
    (storePages noFaults now st dir).1 = .ok := by
  induction dir generalizing st with
  | nil => rfl
  | cons de rest ih =>
    rw [storePages]
    cases hdirty : de.cached.filter fun pg => pg.dirty with
    | none => exact ih st
    | some pg =>
      have hp : Packable (tOpage, pageBytes pg.slots) :=
        packable_of_small _ _ (by decide) (by decide) (by decide) (by rw [length_pageBytes]; decide)
      obtain ⟨⟨st', hash⟩, hput⟩ := casPutObject_noFaults st tOpage (pageBytes pg.slots) now hp
      simp only [hput]
      exact ih st'

theorem store_noFaults (h : OmapHolds W strict om C) (now : Int) :
    ∃ root, (casOmapStore noFaults st om now).1 = .ok root := by
  have hpages := storePages_noFaults now st om.dir
  have hcap := (store_holds noFaults st h now).1.cap
  have hlt := h.cap_lt
  rw [(casOmapStore_eq noFaults st om now).1] at hcap
  unfold casOmapStore
  generalize storePages noFaults now st om.dir = out at hpages hcap ⊢
  obtain ⟨rc, st', dir⟩ := out
  obtain rfl : rc = .ok := hpages
  dsimp only at hcap ⊢
  have hlen : (dirBytes dir).length ≤ 2 ^ 40 := by
    have hlive : (liveEntries dir).length ≤ dir.length := List.length_filter_le _ _
    rw [length_dirBytes, OMAP_DIR_HEADER_LEN, OMAP_DIR_ENTRY_LEN]
    omega
  obtain ⟨⟨st'', hash⟩, hput⟩ := casPutObject_noFaults st' tOmap (dirBytes dir) now
    (packable_of_small _ _ (by decide) (by decide) (by decide) hlen)
  rw [hput]
  exact ⟨hash, rfl⟩

/-! ## The root -/

/-- A row of a root object, from the pages. -/
def pageRow (C : Pages) (n : Nat) : Bytes :=
  storeLe 8 n ++ (objSlot (opageObj (C n))).1 ++ storeLe 2 (pop (C n)) ++ List.replicate 6 0

section
variable {dir : List OmapDirEntry} (h : Represents OmapDirEntry.pageNum (EntryHolds W strict) emptySlots dir C)
  (hc : ∀ de ∈ dir, de.Clean)
include h hc

theorem live_iff (de : OmapDirEntry) (hde : de ∈ dir) : 0 < de.popCount ↔ C de.pageNum ≠ emptySlots := by
  rw [((h.entry de hde).clean (hc de hde)).1, Nat.pos_iff_ne_zero, Ne, pop_eq_zero]

/-- The live entries stand for the same pages. -/
theorem live_represents : Represents OmapDirEntry.pageNum (EntryHolds W strict) emptySlots (liveEntries dir) C := by
  apply h.filter
  intro de hde hp
  by_contra hne
  have := (live_iff h hc de hde).mpr hne
  simp [this] at hp

theorem live_pages (de : OmapDirEntry) (hde : de ∈ liveEntries dir) : C de.pageNum ≠ emptySlots := by
  obtain ⟨hmem, hp⟩ := List.mem_filter.mp hde
  exact (live_iff h hc de hmem).mp (by simpa using hp)

theorem dirBytes_pages : dirBytes dir = OMAP_DIR_MAGIC ++
    storeLe 4 ((liveEntries dir).map OmapDirEntry.pageNum).length ++
      ((liveEntries dir).map OmapDirEntry.pageNum).flatMap (pageRow C) := by
  rw [dirBytes_eq, List.length_map, List.flatMap_map]
  congr 1
  apply List.flatMap_congr
  intro de hde
  obtain ⟨h1, h2, -⟩ := ((live_represents h hc).entry de hde).clean (hc de (List.mem_of_mem_filter hde))
  unfold dirRow pageRow
  rw [h1, h2]

end

/-- **The root object is a function of the pages**: the history does not show. -/
theorem dirBytes_unique {W' : Filed} {strict' : Bool} {dir dir' : List OmapDirEntry}
    (h : Represents OmapDirEntry.pageNum (EntryHolds W strict) emptySlots dir C) (hc : ∀ de ∈ dir, de.Clean)
    (h' : Represents OmapDirEntry.pageNum (EntryHolds W' strict') emptySlots dir' C) (hc' : ∀ de ∈ dir', de.Clean) :
    dirBytes dir = dirBytes dir' := by
  have hkeys := (live_represents h hc).keys_eq (live_represents h' hc') (live_pages h hc) (live_pages h' hc')
  rw [dirBytes_pages h hc, dirBytes_pages h' hc', hkeys]

/-! ## Loading -/

theorem casOmapStore_saved (h : OmapHolds W strict om C) (now : Int) (root : Bytes)
    (hok : (casOmapStore flt st om now).1 = .ok root)
    (hz : strict = true → ∀ n, C n ≠ emptySlots → objSlot (opageObj (C n)) ≠ zeroSlot) :
    SavedRoot (W ++ storeFiles (casOmapStore flt st om now)) strict root C := by
  obtain ⟨h1, h2⟩ := store_holds flt st h now
  have hcap := h1.cap
  have hlt := h1.cap_lt
  refine ⟨_, ?_, by omega, h2 root hok, h1.dir, hz⟩
  apply List.mem_append_right
  unfold storeFiles
  rw [hok]
  exact List.mem_append_right _ (List.mem_singleton.mpr rfl)

theorem SavedRoot.mono {W' : Filed} (hw : ∀ p ∈ W, p ∈ W') {root : Bytes} (h : SavedRoot W strict root C) :
    SavedRoot W' strict root C := by
  obtain ⟨dir, h1, h2, h3, h4, h5⟩ := h
  exact ⟨dir, hw _ h1, h2, h3, h4.mono fun _ _ => EntryHolds.mono hw, h5⟩

/-- **A root that was stored** gives back the pages of that time, in any map. -/
theorem load_saved (hr : Readable cs flt st W) (root : Bytes) (h : SavedRoot W strict root C) (om : Omap) :
    (casOmapLoad cs flt st om root).1 = .ok ∧ OmapHolds W strict (casOmapLoad cs flt st om root).2 C := by
  obtain ⟨dir, hW, hlen, hc, hdir, hz⟩ := h
  have hlive := live_represents hdir hc
  have hle : (liveEntries dir).length ≤ dir.length := List.length_filter_le _ _
  have hback : loadDir (dirBytes dir) (liveEntries dir).length = savedDir dir := by
    apply loadDir_dirBytes
    intro de hde
    have hP := hlive.entry de hde
    have h1 := hP.page_lt
    have h2 := (hP.clean (hc de (List.mem_of_mem_filter hde))).1
    have h3 := pop_le (C de.pageNum)
    unfold CAS_OMAP_PAGE_SLOTS at h3
    exact ⟨by omega, by omega⟩
  unfold casOmapLoad
  simp only [hr _ hW]
  rw [if_neg, if_neg (by rw [dirBytes_magic]; simp), dirBytes_count dir (by omega), if_neg, if_neg (by omega)]
  · refine ⟨rfl, ?_, ?_, by show (liveEntries dir).length < 2 ^ 31; omega⟩
    · show Represents _ _ _ (loadDir (dirBytes dir) (liveEntries dir).length) C
      rw [hback]
      apply hlive.forall₂
      unfold savedDir
      rw [List.forall₂_map_right_iff]
      refine List.forall₂_same.mpr fun de hde => ⟨rfl, ?_⟩
      have hP := hlive.entry de hde
      obtain ⟨h1, h2, h3⟩ := hP.clean (hc de (List.mem_of_mem_filter hde))
      refine ⟨hP.page_lt, fun pg hpg => (by cases hpg), fun _ => ⟨h1, h2, h3⟩, fun hs => ⟨h1, fun _ => ?_⟩⟩
      show de.pageHash ≠ zeroSlot
      rw [h2]
      exact hz hs _ (live_pages hdir hc de hde)
    · show (loadDir (dirBytes dir) (liveEntries dir).length).length ≤ (liveEntries dir).length
      rw [hback, savedDir, List.length_map]
  · rw [length_dirBytes]
    simp
  · rw [length_dirBytes]
    simp

end Smolvfs
