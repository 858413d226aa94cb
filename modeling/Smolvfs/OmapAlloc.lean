import Mathlib.Order.Bounds.Basic
import Smolvfs.OmapRuns

/-!
# The least free id

`cas_omap_alloc` looks for the first id from `start` on that is not mapped, page
by page: a page without an entry is free, a page whose entry counts 256 is passed
over, any other is loaded and its slots are looked through.  The end of the range
and the first id of the next page are 64-bit numbers that wrap.

* `alloc_outcomes`: what a search of a map that holds its pages can come to;
* `alloc_least_iff`: over runs, the search does what its caller is promised
  exactly when `AllocExact` holds of the mapping and the range;
  `alloc_last_id_missed` asks for the last id of an empty map.
-/

namespace Smolvfs

open Octets Search Directory Runs

/-! ## The search -/

/-- What `cas_omap_alloc` fails with: `CAS_OMAP_EFULL`, or what loading a page failed with. -/
inductive AllocError
  | full
  | load (rc : Status)
  deriving DecidableEq

/-- `(page_num + 1) * CAS_OMAP_PAGE_SLOTS` -/
def nextPageId (id : UInt64) : UInt64 := (UInt64.ofNat (idPage id) + 1) * UInt64.ofNat CAS_OMAP_PAGE_SLOTS

/-- The slots of a page, up to one that is past the end or empty. -/
def allocSlots (pageNum : Nat) (slots : OmapSlots) (stop : UInt64) :
    List (Fin CAS_OMAP_PAGE_SLOTS) → Option (Except AllocError UInt64)
  | [] => none
  | s :: rest =>
    let candidate := slotId pageNum s
    if stop ≤ candidate then some (.error .full)
    else if slots s = zeroSlot then some (.ok candidate)
    else allocSlots pageNum slots stop rest

/-- One turn of the loop: the outcome, or none when it goes on with the next page. -/
def allocPage (cs : Codecs) (flt : Faults) (st : Store) (om : Omap) (stop id : UInt64) :
    Option (Except AllocError UInt64) × Omap :=
  match dirEntry om.dir (idPage id) with
  | none => (some (.ok id), om)
  | some de =>
    if de.popCount = CAS_OMAP_PAGE_SLOTS then (none, om)
    else
      match pageLoad cs flt st de with
      | .error rc => (some (.error (.load rc)), om)
      | .ok pg =>
        (allocSlots (idPage id) pg.slots stop ((List.finRange CAS_OMAP_PAGE_SLOTS).drop (idSlot id).1),
          om.setEntry (omapDirFind om.dir (idPage id)) { de with cached := some pg })

/-- `while (id < end)`; without an outcome when the fuel is used up. -/
def allocLoop (cs : Codecs) (flt : Faults) (st : Store) (stop : UInt64) :
    Nat → Omap → UInt64 → Option (Except AllocError UInt64) × Omap
  | 0, om, _ => (none, om)
  | fuel + 1, om, id =>
    if id < stop then
      match allocPage cs flt st om stop id with
      | (none, om) => allocLoop cs flt st stop fuel om (nextPageId id)
      | out => out
    else (some (.error .full), om)

/-- `UINT64_MAX` -/
def maxId : UInt64 := UInt64.ofNat (2 ^ 64 - 1)

/-- `limit > 0 ? start + limit : UINT64_MAX` -/
def allocEnd (start limit : UInt64) : UInt64 := if 0 < limit then start + limit else maxId

/-- `cas_omap_alloc`.  The fuel lets every page of the directory be passed over twice. -/
def casOmapAlloc (cs : Codecs) (flt : Faults) (st : Store) (om : Omap) (start limit : UInt64) :
    Option (Except AllocError UInt64) × Omap :=
  allocLoop cs flt st (allocEnd start limit) (2 * om.dir.length + 2) om start

/-! ## Free numbers -/

/-- The slot of an id is empty. -/
def Free (C : Pages) (n : Nat) : Prop :=
  C (n / CAS_OMAP_PAGE_SLOTS) ⟨n % CAS_OMAP_PAGE_SLOTS, Nat.mod_lt _ (by decide)⟩ = zeroSlot

theorem free_iff (C : Pages) (id : UInt64) : Free C id.toNat ↔ mapping C id = none := (mapping_eq_none C id).symm

theorem free_slot (C : Pages) (n : Nat) (s : Fin CAS_OMAP_PAGE_SLOTS) :
    Free C (n * CAS_OMAP_PAGE_SLOTS + s.1) ↔ C n s = zeroSlot := by
  have h1 : (n * CAS_OMAP_PAGE_SLOTS + s.1) / CAS_OMAP_PAGE_SLOTS = n := by
    rw [Nat.mul_comm, Nat.mul_add_div (by decide), Nat.div_eq_of_lt s.2, Nat.add_zero]
  have h2 : (n * CAS_OMAP_PAGE_SLOTS + s.1) % CAS_OMAP_PAGE_SLOTS = s.1 := by
    rw [Nat.mul_comm, Nat.mul_add_mod, Nat.mod_eq_of_lt s.2]
  unfold Free
  simp only [h1, h2]

theorem pop_eq_full (P : OmapSlots) : pop P = CAS_OMAP_PAGE_SLOTS ↔ ∀ s, P s ≠ zeroSlot := by
  have hall : pop P = (List.finRange CAS_OMAP_PAGE_SLOTS).length ↔ ∀ s, P s ≠ zeroSlot := by
    unfold pop usedSlots
    rw [List.length_filter_eq_length_iff]
    simp
  rw [List.length_finRange] at hall
  exact hall

/-- A page is full when none of its ids is free. -/
theorem misses_page (C : Pages) (n : Nat) :
    Misses (Free C) (n * CAS_OMAP_PAGE_SLOTS) ((n + 1) * CAS_OMAP_PAGE_SLOTS) ↔ pop (C n) = CAS_OMAP_PAGE_SLOTS := by
  rw [pop_eq_full]
  constructor
  · intro h s hs
    have hlt := s.2
    exact h _ (Nat.le_add_right _ _) (by rw [Nat.succ_mul]; omega) ((free_slot C n s).mpr hs)
  · intro h i hlo hhi hfree
    rw [Nat.succ_mul] at hhi
    obtain ⟨k, rfl⟩ := Nat.exists_eq_add_of_le hlo
    exact h ⟨k, by omega⟩ ((free_slot C n ⟨k, by omega⟩).mp hfree)

/-- The last page is full, and the search can get past it: it goes on at id 0. -/
def Wraps (C : Pages) (stop : UInt64) : Prop := 2 ^ 64 - 256 < stop.toNat ∧ Misses (Free C) (2 ^ 64 - 256) (2 ^ 64)

/-! ## One page -/

section
variable (C : Pages) {n : Nat} (stop : UInt64) (hn : n < 2 ^ 56)
include hn

theorem allocSlots_spec (k : Nat) (hk : k ≤ CAS_OMAP_PAGE_SLOTS) (hin : n * CAS_OMAP_PAGE_SLOTS + k ≤ stop.toNat) :
    (∃ id, allocSlots n (C n) stop ((List.finRange CAS_OMAP_PAGE_SLOTS).drop k) = some (.ok id) ∧
        FirstHit (Free C) (n * CAS_OMAP_PAGE_SLOTS + k) stop.toNat id.toNat) ∨
      (allocSlots n (C n) stop ((List.finRange CAS_OMAP_PAGE_SLOTS).drop k) = some (.error .full) ∧
        stop.toNat < (n + 1) * CAS_OMAP_PAGE_SLOTS ∧ Misses (Free C) (n * CAS_OMAP_PAGE_SLOTS + k) stop.toNat) ∨
      (allocSlots n (C n) stop ((List.finRange CAS_OMAP_PAGE_SLOTS).drop k) = none ∧
        (n + 1) * CAS_OMAP_PAGE_SLOTS ≤ stop.toNat ∧
        Misses (Free C) (n * CAS_OMAP_PAGE_SLOTS + k) ((n + 1) * CAS_OMAP_PAGE_SLOTS)) := by
  have hnext : (n + 1) * CAS_OMAP_PAGE_SLOTS = n * CAS_OMAP_PAGE_SLOTS + CAS_OMAP_PAGE_SLOTS := Nat.succ_mul ..
  -- by induction on the slots that are left
  induction hd : CAS_OMAP_PAGE_SLOTS - k generalizing k with
  | zero =>
    refine Or.inr (Or.inr ⟨?_, by omega, misses_nil (by omega)⟩)
    rw [List.drop_eq_nil_of_le (by rw [List.length_finRange]; omega)]
    rfl
  | succ d ih =>
    have hlt : k < CAS_OMAP_PAGE_SLOTS := by omega
    have hcons : (List.finRange CAS_OMAP_PAGE_SLOTS).drop k =
        ⟨k, hlt⟩ :: (List.finRange CAS_OMAP_PAGE_SLOTS).drop (k + 1) := by
      rw [List.drop_eq_getElem_cons (by rw [List.length_finRange]; exact hlt), List.getElem_finRange]
      rfl
    have hid := toNat_slotId n ⟨k, hlt⟩ hn
    have hfree := free_slot C n ⟨k, hlt⟩
    rw [hcons, allocSlots]
    dsimp only at hid hfree ⊢
    by_cases hstop : stop ≤ slotId n ⟨k, hlt⟩
    · rw [if_pos hstop]
      have hle := UInt64.le_iff_toNat_le.mp hstop
      exact Or.inr (Or.inl ⟨rfl, by omega, misses_nil (by omega)⟩)
    · rw [if_neg hstop]
      have hgt : slotId n ⟨k, hlt⟩ < stop := by simpa using hstop
      have hgt := UInt64.lt_iff_toNat_lt.mp hgt
      by_cases hz : C n ⟨k, hlt⟩ = zeroSlot
      · rw [if_pos hz]
        refine Or.inl ⟨_, rfl, ?_⟩
        rw [hid]
        exact firstHit_here (by omega) (hfree.mpr hz)
      · rw [if_neg hz]
        have hmiss : Misses (Free C) (n * CAS_OMAP_PAGE_SLOTS + k) (n * CAS_OMAP_PAGE_SLOTS + (k + 1)) :=
          Misses.cons (fun hf => hz (hfree.mp hf)) (misses_nil (by omega))
        rcases ih (k + 1) hlt (by omega) (by omega) with ⟨id, h1, h2⟩ | ⟨h1, h2, h3⟩ | ⟨h1, h2, h3⟩
        · exact Or.inl ⟨id, h1, h2.after hmiss (by omega)⟩
        · exact Or.inr (Or.inl ⟨h1, h2, hmiss.append h3⟩)
        · exact Or.inr (Or.inr ⟨h1, h2, hmiss.append h3⟩)

end

/-! ## The turns -/

section
variable {cs : Codecs} {flt : Faults} {st : Store} {W : Filed} {om : Omap} {C : Pages} {stop : UInt64}

/-- The numbers of the pages that have entries. -/
def pageNums (om : Omap) : List Nat := om.dir.map OmapDirEntry.pageNum

theorem pageNums_setEntry {pos : Nat} {de : OmapDirEntry} (hd : om.dir[pos]? = some de) (pg : OmapPage) :
    pageNums (om.setEntry pos { de with cached := some pg }) = pageNums om := by
  obtain ⟨hi, hde⟩ := List.getElem?_eq_some_iff.mp hd
  show (om.dir.set pos _).map _ = om.dir.map _
  apply List.ext_getElem (by simp)
  intro i h1 h2
  rw [List.getElem_map, List.getElem_map, List.getElem_set]
  split
  · next heq =>
    subst heq
    rw [hde]
  · rfl

theorem id_split (id : UInt64) : idPage id * CAS_OMAP_PAGE_SLOTS + (idSlot id).1 = id.toNat :=
  Nat.div_add_mod' id.toNat _

/-- **One turn** of the search. -/
theorem allocPage_spec (hr : Readable cs flt st W) (h : OmapHolds W true om C) (id : UInt64) (hid : id < stop) :
    ∃ om', OmapHolds W true om' C ∧ pageNums om' = pageNums om ∧
      ((∃ n, allocPage cs flt st om stop id = (some (.ok n), om') ∧
          FirstHit (Free C) id.toNat stop.toNat n.toNat) ∨
        (allocPage cs flt st om stop id = (some (.error .full), om') ∧ Misses (Free C) id.toNat stop.toNat ∧
          ¬ Wraps C stop) ∨
        (allocPage cs flt st om stop id = (none, om') ∧ idPage id ∈ pageNums om ∧
          Misses (Free C) id.toNat ((idPage id + 1) * CAS_OMAP_PAGE_SLOTS) ∧
          ((idPage id + 1) * CAS_OMAP_PAGE_SLOTS ≤ stop.toNat ∨ pop (C (idPage id)) = CAS_OMAP_PAGE_SLOTS))) := by
  have hsplit := id_split id
  have hlt := UInt64.lt_iff_toNat_lt.mp hid
  unfold allocPage
  rcases dirEntry_cases h (idPage id) with ⟨de, hde, hpos, hk, hP⟩ | ⟨hno, -, hC⟩
  · have hmem : idPage id ∈ pageNums om := List.mem_map.mpr ⟨de, List.mem_of_getElem? hpos, hk⟩
    have hpop := (hP.exact rfl).1
    rw [hde]
    dsimp only
    by_cases hfull : de.popCount = CAS_OMAP_PAGE_SLOTS
    · rw [if_pos hfull]
      rw [hpop] at hfull
      refine ⟨om, h, rfl, Or.inr (Or.inr ⟨rfl, hmem, ?_, Or.inr hfull⟩)⟩
      exact ((misses_page C _).mpr hfull).mono (by omega) (Nat.le_refl _)
    · rw [if_neg hfull]
      obtain ⟨pg, hpg, hslots, -, hP'⟩ := pageLoad_holds hr hP
      have hset := h.setEntry hpos hk { de with cached := some pg } hk _ hP'
      rw [Function.update_eq_self] at hset
      rw [hpg]
      dsimp only
      rw [hslots]
      refine ⟨_, hset, pageNums_setEntry hpos pg, ?_⟩
      rcases allocSlots_spec C stop (idPage_lt id) (idSlot id).1 (Nat.le_of_lt (idSlot id).2)
        (by omega) with ⟨n, h1, h2⟩ | ⟨h1, h2, h3⟩ | ⟨h1, h2, h3⟩
      · rw [hsplit] at h2
        rw [h1]
        exact Or.inl ⟨n, rfl, h2⟩
      · rw [hsplit] at h3
        rw [h1]
        refine Or.inr (Or.inl ⟨rfl, h3, ?_⟩)
        -- the end is in this page; were it in the last, that would be this one, which is not full
        rintro ⟨hw1, hw2⟩
        have hpage := idPage_lt id
        have hlast : idPage id = 2 ^ 56 - 1 := by
          unfold CAS_OMAP_PAGE_SLOTS at h2
          omega
        apply hfull
        rw [hpop, ← misses_page, hlast]
        exact hw2
      · rw [hsplit] at h3
        rw [h1]
        exact Or.inr (Or.inr ⟨rfl, hmem, h3, Or.inl h2⟩)
  · rw [hno]
    refine ⟨om, h, rfl, Or.inl ⟨id, rfl, firstHit_here hlt ?_⟩⟩
    rw [free_iff, mapping_eq_none, hC]
    rfl

theorem toNat_nextPageId (id : UInt64) (h : idPage id + 1 < 2 ^ 56) :
    (nextPageId id).toNat = (idPage id + 1) * CAS_OMAP_PAGE_SLOTS := by
  unfold nextPageId CAS_OMAP_PAGE_SLOTS
  rw [UInt64.toNat_mul, UInt64.toNat_add, UInt64.toNat_ofNat']
  show (_ % _ + 1) % _ * 256 % _ = _
  omega

/-- After the last page comes the first. -/
theorem nextPageId_last (id : UInt64) (h : idPage id + 1 = 2 ^ 56) : nextPageId id = 0 := by
  have hpage : idPage id = 2 ^ 56 - 1 := by omega
  unfold nextPageId
  rw [hpage]
  rfl

/-- How many pages that have entries are yet to come. -/
def pagesFrom (om : Omap) (n : Nat) : Nat := (pageNums om).countP fun k => decide (n ≤ k)

theorem pagesFrom_succ (n : Nat) (h : n ∈ pageNums om) : pagesFrom om (n + 1) < pagesFrom om n := by
  unfold pagesFrom
  generalize pageNums om = l at h
  induction l with
  | nil => cases h
  | cons k l ih =>
    have hmono : l.countP (fun k => decide (n + 1 ≤ k)) ≤ l.countP fun k => decide (n ≤ k) := by
      apply List.countP_mono_left
      intro k _ hk
      simp only [decide_eq_true_eq] at hk ⊢
      omega
    rw [List.countP_cons, List.countP_cons]
    simp only [decide_eq_true_eq]
    rcases List.mem_cons.mp h with rfl | h
    · rw [if_neg (by omega), if_pos (Nat.le_refl _)]
      omega
    · have := ih h
      split <;> split <;> omega

variable (stop) in
/-- **The turns up to the last page**, with fuel for the pages to come: an outcome, or the search is back
at id 0 with nothing free from where it began to the last id. -/
theorem allocLoop_spec (hr : Readable cs flt st W) (k fuel : Nat) (om : Omap) (h : OmapHolds W true om C)
    (id : UInt64) (hk : pagesFrom om (idPage id) ≤ k) :
    ∃ om', OmapHolds W true om' C ∧ pageNums om' = pageNums om ∧
      ((∃ n, allocLoop cs flt st stop (k + 1 + fuel) om id = (some (.ok n), om') ∧
          FirstHit (Free C) id.toNat stop.toNat n.toNat) ∨
        (allocLoop cs flt st stop (k + 1 + fuel) om id = (some (.error .full), om') ∧
          Misses (Free C) id.toNat stop.toNat ∧ ¬ (id < stop ∧ Wraps C stop)) ∨
        (id < stop ∧ Wraps C stop ∧ Misses (Free C) id.toNat (2 ^ 64) ∧
          ∃ g, fuel ≤ g ∧ allocLoop cs flt st stop (k + 1 + fuel) om id = allocLoop cs flt st stop g om' 0)) := by
  -- by induction on the pages to come
  induction k using Nat.strong_induction_on generalizing om id with
  | _ k ih =>
    rw [show k + 1 + fuel = (k + fuel) + 1 by omega, allocLoop]
    by_cases hid : id < stop
    · rw [if_pos hid]
      obtain ⟨om', h1, h2, ⟨n, h3, h4⟩ | ⟨h3, h4, h5⟩ | ⟨h3, h4, h5, h6⟩⟩ := allocPage_spec hr h id hid
      · rw [h3]
        exact ⟨om', h1, h2, Or.inl ⟨n, rfl, h4⟩⟩
      · rw [h3]
        exact ⟨om', h1, h2, Or.inr (Or.inl ⟨rfl, h4, fun hw => h5 hw.2⟩)⟩
      · rw [h3]
        dsimp only
        have hpage := idPage_lt id
        have hle : id.toNat ≤ (idPage id + 1) * CAS_OMAP_PAGE_SLOTS := by
          have h7 := id_split id
          have h8 := (idSlot id).2
          rw [Nat.succ_mul]
          omega
        by_cases hlast : idPage id + 1 = 2 ^ 56
        · -- past the last page, which is full as its end is past the end of the range
          rw [nextPageId_last id hlast]
          rw [hlast] at h5 h6 hle
          have hfull : pop (C (idPage id)) = CAS_OMAP_PAGE_SLOTS := by
            have h7 := stop.toNat_lt
            rcases h6 with h6 | h6
            · unfold CAS_OMAP_PAGE_SLOTS at h6
              omega
            · exact h6
          have hw : Wraps C stop := by
            have h7 := UInt64.lt_iff_toNat_lt.mp hid
            have h8 := id_split id
            have h9 : idPage id = 2 ^ 56 - 1 := by omega
            refine ⟨?_, ?_⟩
            · rw [h9] at h8
              unfold CAS_OMAP_PAGE_SLOTS at h8
              omega
            · have h10 := (misses_page C _).mpr hfull
              rw [h9] at h10
              exact h10
          exact ⟨om', h1, h2, Or.inr (Or.inr ⟨hid, hw, h5, k + fuel, by omega, rfl⟩)⟩
        · have hlt : idPage id + 1 < 2 ^ 56 := by omega
          have hnext := toNat_nextPageId id hlt
          have hnextPage : idPage (nextPageId id) = idPage id + 1 := by
            unfold idPage at hnext ⊢
            rw [hnext, Nat.mul_div_cancel _ (by decide)]
          have hfewer : pagesFrom om' (idPage (nextPageId id)) < pagesFrom om (idPage id) := by
            rw [hnextPage]
            unfold pagesFrom
            rw [h2]
            exact pagesFrom_succ _ h4
          obtain ⟨j, rfl⟩ : ∃ j, k = j + 1 := ⟨k - 1, by omega⟩
          have hbelow : (idPage id + 1) * CAS_OMAP_PAGE_SLOTS ≤ 2 ^ 64 - 256 := by
            unfold CAS_OMAP_PAGE_SLOTS
            omega
          obtain ⟨om'', g1, g2, ⟨n, g3, g4⟩ | ⟨g3, g4, g5⟩ | ⟨g3, g4, g5, g, g6, g7⟩⟩ :=
            ih j (by omega) om' h1 (nextPageId id) (by omega)
          · rw [hnext] at g4
            exact ⟨om'', g1, g2.trans h2, Or.inl ⟨n, g3, g4.after h5 hle⟩⟩
          · rw [hnext] at g4
            refine ⟨om'', g1, g2.trans h2, Or.inr (Or.inl ⟨g3, h5.append g4, ?_⟩)⟩
            rintro ⟨-, hw⟩
            refine g5 ⟨?_, hw⟩
            rw [UInt64.lt_iff_toNat_lt, hnext]
            exact Nat.lt_of_le_of_lt hbelow hw.1
          · rw [hnext] at g5
            exact ⟨om'', g1, g2.trans h2, Or.inr (Or.inr ⟨hid, g4, h5.append g5, g, g6, g7⟩)⟩
    · rw [if_neg hid]
      have hge : stop.toNat ≤ id.toNat := by
        rw [UInt64.lt_iff_toNat_lt] at hid
        omega
      exact ⟨om, h, rfl, Or.inr (Or.inl ⟨rfl, misses_nil hge, fun hw => hid hw.1⟩)⟩

/-- A directory has an entry for few of the pages. -/
theorem exists_free (h : OmapHolds W strict om C) : ∃ n, n < 2 ^ 40 ∧ Free C n := by
  have hcap := h.cap
  have hlt := h.cap_lt
  have hgap : ∃ n, n ≤ om.dir.length ∧ n ∉ pageNums om := by
    by_contra hno
    have hsub : List.range (om.dir.length + 1) ⊆ pageNums om := by
      intro n hn
      by_contra hc
      exact hno ⟨n, by have := List.mem_range.mp hn; omega, hc⟩
    have hlen := (List.subperm_of_subset List.nodup_range hsub).length_le
    rw [List.length_range, pageNums, List.length_map] at hlen
    omega
  obtain ⟨n, hn, habs⟩ := hgap
  have hC : C n = emptySlots := by
    apply h.dir.absent
    intro de hde hk
    exact habs (List.mem_map.mpr ⟨de, hde, hk⟩)
  refine ⟨n * CAS_OMAP_PAGE_SLOTS, ?_, ?_⟩
  · unfold CAS_OMAP_PAGE_SLOTS
    omega
  · have hfree := free_slot C n ⟨0, by decide⟩
    dsimp only at hfree
    rw [hC, Nat.add_zero] at hfree
    exact hfree.mpr rfl

/-- **What a search comes to**: the first free id of the range as the code has it, that there is none, or
an id before the range, found after the last page was passed over. -/
theorem alloc_outcomes (hr : Readable cs flt st W) (h : OmapHolds W true om C) (start limit : UInt64) :
    ∃ om', OmapHolds W true om' C ∧
      ((∃ n, casOmapAlloc cs flt st om start limit = (some (.ok n), om') ∧
          FirstHit (Free C) start.toNat (allocEnd start limit).toNat n.toNat) ∨
        (casOmapAlloc cs flt st om start limit = (some (.error .full), om') ∧
          Misses (Free C) start.toNat (allocEnd start limit).toNat ∧
          ¬ (start < allocEnd start limit ∧ Wraps C (allocEnd start limit))) ∨
        (start < allocEnd start limit ∧ Wraps C (allocEnd start limit) ∧ Misses (Free C) start.toNat (2 ^ 64) ∧
          ∃ n, casOmapAlloc cs flt st om start limit = (some (.ok n), om') ∧ n < start)) := by
  have hcount : ∀ (om : Omap) n, pagesFrom om n ≤ (pageNums om).length := fun om n => List.countP_le_length
  have hlen : (pageNums om).length = om.dir.length := List.length_map _
  have hfuel : 2 * om.dir.length + 2 = om.dir.length + 1 + (om.dir.length + 1) := by omega
  unfold casOmapAlloc
  rw [hfuel]
  obtain ⟨om', h1, h2, ⟨n, h3, h4⟩ | ⟨h3, h4, h5⟩ | ⟨h3, h4, h5, g, h6, h7⟩⟩ :=
    allocLoop_spec (allocEnd start limit) hr om.dir.length (om.dir.length + 1) om h start
      (by have := hcount om (idPage start); omega)
  · exact ⟨om', h1, Or.inl ⟨n, h3, h4⟩⟩
  · exact ⟨om', h1, Or.inr (Or.inl ⟨h3, h4, h5⟩)⟩
  · -- from id 0 there is a free id before the end of the range, and it is before the start
    obtain ⟨z, hz, hfree⟩ := exists_free h
    have hmiss : ¬ Misses (Free C) 0 (allocEnd start limit).toNat := by
      intro hm
      have hw := h4.1
      exact hm z (Nat.zero_le _) (by omega) hfree
    obtain ⟨f, rfl⟩ : ∃ f, g = om.dir.length + 1 + f := ⟨g - (om.dir.length + 1), by omega⟩
    rw [h7]
    obtain ⟨om'', g1, -, ⟨n, g3, g4⟩ | ⟨-, g4, -⟩ | ⟨-, -, g5, -⟩⟩ :=
      allocLoop_spec (allocEnd start limit) hr om.dir.length f om' h1 0
        (by have := hcount om' (idPage 0); rw [h2] at this; omega)
    · refine ⟨om'', g1, Or.inr (Or.inr ⟨h3, h4, h5, n, g3, ?_⟩)⟩
      rw [UInt64.lt_iff_toNat_lt]
      by_contra hge
      exact h5 n.toNat (by omega) n.toNat_lt g4.2.2.1
    · exact absurd g4 hmiss
    · exact absurd (g5.mono (Nat.le_refl _) (Nat.le_of_lt (allocEnd start limit).toNat_lt)) hmiss

end

/-! ## What the caller is promised -/

/-- The ids a caller asks for: from `start` on and, unless `limit` is 0, below `start + limit`. -/
def InRange (start limit id : UInt64) : Prop := start ≤ id ∧ (limit = 0 ∨ id.toNat < start.toNat + limit.toNat)

/-- The outcome of a search as promised: the least id asked for that is not mapped, or that there is none. -/
def AllocFinds (m : IdMap) (start limit : UInt64) : Option (Except AllocError UInt64) → Prop
  | some (.ok id) => IsLeast {id | InRange start limit id ∧ m id = none} id
  | some (.error e) => e = .full ∧ ∀ id, InRange start limit id → m id ≠ none
  | none => False

/-- Every id from this one on is mapped. -/
def FullFrom (m : IdMap) (start : UInt64) : Prop := ∀ id, start ≤ id → m id ≠ none

/-- The first id of the last page. -/
def lastPageId : UInt64 := UInt64.ofNat (2 ^ 64 - 256)

/-- Where the search does what is promised.  Without a limit it never looks at the last id, with one whose
sum is past the ids it looks at none, and a full last page sends it back to id 0. -/
def AllocExact (m : IdMap) (start limit : UInt64) : Prop :=
  if limit = 0 then
    (∃ id, start ≤ id ∧ id < maxId ∧ m id = none) ∨
      (m maxId ≠ none ∧ (start = maxId ∨ ¬ FullFrom m lastPageId))
  else if start.toNat + limit.toNat < 2 ^ 64 then
    ¬ (lastPageId.toNat < start.toNat + limit.toNat ∧ FullFrom m start ∧ FullFrom m lastPageId)
  else FullFrom m start

section
variable {C : Pages} {start limit : UInt64}

theorem misses_iff (lo hi : Nat) (hhi : hi ≤ 2 ^ 64) :
    Misses (Free C) lo hi ↔ ∀ id : UInt64, lo ≤ id.toNat → id.toNat < hi → mapping C id ≠ none := by
  constructor
  · intro h id h1 h2 hm
    exact h id.toNat h1 h2 ((free_iff C id).mpr hm)
  · intro h i h1 h2 hfree
    have hi : (UInt64.ofNat i).toNat = i := by
      rw [UInt64.toNat_ofNat', Nat.mod_eq_of_lt (by omega)]
    refine h (UInt64.ofNat i) (by omega) (by omega) ((free_iff C _).mp ?_)
    rw [hi]
    exact hfree

theorem fullFrom_iff (id : UInt64) : FullFrom (mapping C) id ↔ Misses (Free C) id.toNat (2 ^ 64) := by
  rw [misses_iff _ _ (Nat.le_refl _)]
  constructor
  · intro h i hi _
    exact h i (UInt64.le_iff_toNat_le.mpr hi)
  · intro h i hi
    exact h i (UInt64.le_iff_toNat_le.mp hi) i.toNat_lt

theorem toNat_maxId : maxId.toNat = 2 ^ 64 - 1 := rfl

theorem toNat_lastPageId : lastPageId.toNat = 2 ^ 64 - 256 := rfl

theorem le_maxId (id : UInt64) : id.toNat ≤ maxId.toNat := by
  have := id.toNat_lt
  rw [toNat_maxId]
  omega

theorem allocEnd_zero : (allocEnd start 0).toNat = 2 ^ 64 - 1 := rfl

theorem toNat_allocEnd (h : limit ≠ 0) : (allocEnd start limit).toNat = (start.toNat + limit.toNat) % 2 ^ 64 := by
  have hpos : 0 < limit := by
    rw [UInt64.lt_iff_toNat_lt]
    rcases Nat.eq_zero_or_pos limit.toNat with h0 | h0
    · exact absurd (UInt64.toNat_inj.mp h0) h
    · exact h0
  unfold allocEnd
  rw [if_pos hpos, UInt64.toNat_add]

theorem wraps_iff (stop : UInt64) : Wraps C stop ↔ lastPageId.toNat < stop.toNat ∧ FullFrom (mapping C) lastPageId := by
  rw [fullFrom_iff]
  rfl

/-- The search found the first free id before its end. -/
theorem finds_first (n : UInt64) (h : FirstHit (Free C) start.toNat (allocEnd start limit).toNat n.toNat) :
    AllocFinds (mapping C) start limit (some (.ok n)) ∧ AllocExact (mapping C) start limit := by
  obtain ⟨h1, h2, h3, h4⟩ := h
  rw [free_iff] at h3
  rw [misses_iff _ _ (Nat.le_of_lt n.toNat_lt)] at h4
  have hfree : ¬ FullFrom (mapping C) start := fun hf => hf n (UInt64.le_iff_toNat_le.mpr h1) h3
  have hleast : ∀ id, InRange start limit id → mapping C id = none → n.toNat ≤ id.toNat := by
    intro id hid hm
    by_contra hlt
    exact h4 id (UInt64.le_iff_toNat_le.mp hid.1) (by omega) hm
  refine ⟨⟨⟨⟨UInt64.le_iff_toNat_le.mpr h1, ?_⟩, h3⟩, fun id hid => ?_⟩, ?_⟩
  · by_cases hl : limit = 0
    · exact Or.inl hl
    · rw [toNat_allocEnd hl] at h2
      exact Or.inr (Nat.lt_of_lt_of_le h2 (Nat.mod_le _ _))
  · exact UInt64.le_iff_toNat_le.mpr (hleast id hid.1 hid.2)
  · unfold AllocExact
    split
    · next hl =>
      subst hl
      exact Or.inl ⟨n, UInt64.le_iff_toNat_le.mpr h1, UInt64.lt_iff_toNat_lt.mpr h2, h3⟩
    · next hl =>
      split
      · exact fun hw => hfree hw.2.1
      · next hbig =>
        have hlt := start.toNat_lt
        have hlt' := limit.toNat_lt
        rw [toNat_allocEnd hl] at h2
        omega

/-- The search found no free id before its end, and did not go past the last page. -/
theorem finds_full (h : Misses (Free C) start.toNat (allocEnd start limit).toNat)
    (hw : ¬ (start < allocEnd start limit ∧ Wraps C (allocEnd start limit))) :
    AllocFinds (mapping C) start limit (some (.error .full)) ↔ AllocExact (mapping C) start limit := by
  rw [misses_iff _ _ (Nat.le_of_lt (allocEnd start limit).toNat_lt)] at h
  rw [wraps_iff, UInt64.lt_iff_toNat_lt] at hw
  have hlt := start.toNat_lt
  show (AllocError.full = .full ∧ ∀ id, InRange start limit id → mapping C id ≠ none) ↔ _
  unfold AllocExact InRange
  by_cases hl : limit = 0
  · subst hl
    rw [allocEnd_zero] at h hw
    rw [toNat_lastPageId] at hw
    rw [if_pos rfl]
    have hnone : ¬ ∃ id, start ≤ id ∧ id < maxId ∧ mapping C id = none := by
      rintro ⟨id, h1, h2, h3⟩
      exact h id (UInt64.le_iff_toNat_le.mp h1) (UInt64.lt_iff_toNat_lt.mp h2) h3
    constructor
    · rintro ⟨-, hall⟩
      refine Or.inr ⟨hall maxId ⟨UInt64.le_iff_toNat_le.mpr (le_maxId start), Or.inl rfl⟩, ?_⟩
      by_cases hs : start = maxId
      · exact Or.inl hs
      · have hne : start.toNat ≠ maxId.toNat := fun he => hs (UInt64.toNat_inj.mp he)
        rw [toNat_maxId] at hne
        exact Or.inr fun hf => hw ⟨by omega, by omega, hf⟩
    · rintro (hex | ⟨hlast, -⟩)
      · exact absurd hex hnone
      · refine ⟨rfl, fun id hid hm => ?_⟩
        by_cases he : id = maxId
        · exact hlast (he ▸ hm)
        · have hne : id.toNat ≠ maxId.toNat := fun h0 => he (UInt64.toNat_inj.mp h0)
          have hle := le_maxId id
          exact hnone ⟨id, hid.1, UInt64.lt_iff_toNat_lt.mpr (by omega), hm⟩
  · have hpos : limit.toNat ≠ 0 := fun h0 => hl (UInt64.toNat_inj.mp h0)
    rw [toNat_allocEnd hl] at h hw
    rw [if_neg hl]
    split
    · next hsum =>
      rw [Nat.mod_eq_of_lt hsum] at h hw
      constructor
      · rintro - ⟨h1, -, h3⟩
        exact hw ⟨by omega, h1, h3⟩
      · refine fun _ => ⟨rfl, fun id hid hm => ?_⟩
        rcases hid.2 with h0 | hid2
        · exact hl h0
        · exact h id (UInt64.le_iff_toNat_le.mp hid.1) hid2 hm
    · next hsum =>
      constructor
      · rintro ⟨-, hall⟩ id hid
        exact hall id ⟨hid, Or.inr (by have := id.toNat_lt; omega)⟩
      · exact fun hf => ⟨rfl, fun id hid => hf id hid.1⟩

/-- The search went past the last page and found an id before the start. -/
theorem finds_wrapped (n : UInt64) (hn : n < start) (h : start < allocEnd start limit)
    (hw : Wraps C (allocEnd start limit)) (hm : Misses (Free C) start.toNat (2 ^ 64)) :
    ¬ AllocFinds (mapping C) start limit (some (.ok n)) ∧ ¬ AllocExact (mapping C) start limit := by
  rw [← fullFrom_iff] at hm
  rw [wraps_iff] at hw
  rw [UInt64.lt_iff_toNat_lt] at h hn
  constructor
  · rintro ⟨⟨⟨hge, -⟩, -⟩, -⟩
    rw [UInt64.le_iff_toNat_le] at hge
    omega
  · unfold AllocExact
    split
    · next hl =>
      subst hl
      rintro (⟨id, hid, -, hfree⟩ | ⟨-, rfl | hlast⟩)
      · exact hm id hid hfree
      · exact absurd h (Nat.lt_irrefl _)
      · exact hlast hw.2
    · next hl =>
      have hlt := start.toNat_lt
      have hlt' := limit.toNat_lt
      rw [toNat_allocEnd hl] at h hw
      split
      · next hsum =>
        rw [Nat.mod_eq_of_lt hsum] at hw
        exact fun hexact => hexact ⟨hw.1, hm, hw.2⟩
      · omega

end

/-! ## Runs -/

/-- **The least free id**, in every run in which the stored objects read back, no call puts the all-zero
hash and no page is stored at the all-zero address.  The search ends, keeps the mapping, and gives what its
caller is promised exactly when `AllocExact` holds. -/
theorem alloc_least_iff (cs : Codecs) (st : Store) (s : OmapSys)
    (h : Run (OmapStep cs) (Tame cs) (OmapSys.start st) s) (k : Nat) (flt : Faults)
    (hr : Readable cs flt s.st s.filed) (start limit : UInt64) :
    (AllocFinds (s.spec k) start limit (casOmapAlloc cs flt s.st (s.maps k) start limit).1 ↔
        AllocExact (s.spec k) start limit) ∧
      (casOmapAlloc cs flt s.st (s.maps k) start limit).1 ≠ none ∧
      ActsAs cs flt s.st (casOmapAlloc cs flt s.st (s.maps k) start limit).2 (s.spec k) := by
  obtain ⟨C, hC, hm⟩ := (omapInv_tame st s h).holds k
  rw [← hm rfl]
  obtain ⟨om', hom, ⟨n, h1, h2⟩ | ⟨h1, h2, h3⟩ | ⟨h1, h2, h3, n, h4, h5⟩⟩ := alloc_outcomes hr hC start limit
  · rw [h1]
    obtain ⟨h3, h4⟩ := finds_first n h2
    exact ⟨iff_of_true h3 h4, Option.some_ne_none _, holds_actsAs hr hom⟩
  · rw [h1]
    exact ⟨finds_full h2 h3, Option.some_ne_none _, holds_actsAs hr hom⟩
  · rw [h4]
    obtain ⟨h6, h7⟩ := finds_wrapped n h5 h1 h2 h3
    exact ⟨iff_of_false h6 h7, Option.some_ne_none _, holds_actsAs hr hom⟩

/-- One id is put; the one after it is the first free from it on. -/
theorem alloc_least_after_put : ∃ s, Run (OmapStep []) (Tame []) (OmapSys.start Store.empty) s ∧
    s.spec 0 = Function.update (fun _ => none) 5 (some oneHash) ∧
    AllocFinds (s.spec 0) 5 10 (casOmapAlloc [] noFaults s.st (s.maps 0) 5 10).1 := by
  have hread : ∀ st, Readable [] noFaults st [] := by simp [Readable]
  have hone : oneHash ≠ zeroHash := by decide
  have h0 : Run (OmapStep []) (Tame []) (OmapSys.start Store.empty) (OmapSys.start Store.empty) := .refl _
  have h1 := h0.tail (a := OmapAct.call 0 noFaults 0 (.put 5 oneHash)) rfl ⟨⟨⟨hread _, trivial⟩, hone⟩, trivial⟩
  refine ⟨_, h1, rfl, ((alloc_least_iff [] Store.empty _ h1 0 noFaults (hread _) 5 10).1).mpr ?_⟩
  unfold AllocExact
  rw [if_neg (by decide), if_pos (by decide)]
  rintro ⟨h2, -⟩
  exact absurd h2 (by decide)

/-- Nothing is mapped and the last id is asked for, with the limit 1: there is none, says the search. -/
theorem alloc_last_id_missed : ∃ s, Run (OmapStep []) (Tame []) (OmapSys.start Store.empty) s ∧
    (casOmapAlloc [] noFaults s.st (s.maps 0) maxId 1).1 = some (.error .full) ∧
    InRange maxId 1 maxId ∧ s.spec 0 maxId = none ∧
    ¬ AllocFinds (s.spec 0) maxId 1 (casOmapAlloc [] noFaults s.st (s.maps 0) maxId 1).1 := by
  have hin : InRange maxId 1 maxId := ⟨UInt64.le_refl _, Or.inr (by decide)⟩
  refine ⟨_, .refl _, rfl, hin, rfl, ?_⟩
  rintro ⟨-, hall⟩
  exact hall maxId hin rfl

end Smolvfs
