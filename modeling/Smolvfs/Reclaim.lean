import Smolvfs.RawObject
import Smolvfs.TreeStore

/-!
# Reclaiming loose copies

`reclaimable` and `cas_pack_reclaim` of `cas-pack.c`: a loose copy goes once the
pack at the given path has the object, rehashed when it is addressed by its own
bytes and only decoded when it is an htree.

`reclaim_keeps_a_copy`: an address with a copy that passes its check keeps one,
loose, in the depot's own pack or in the pack at the path, but for an htree there
that was only decoded.
-/

namespace Smolvfs

open Octets

/-- `reclaimable` -/
def reclaimable (cs : Codecs) (flt : Faults) (pack : Pack) (hex : Bytes) : Bool :=
  match casPackLookup cs (flt (.bufObj hex)) pack hex with
  | .error _ => false
  | .ok (type, data) =>
    if casTypeIsReencoded type then true
    else
      match casHashObject type data with
      | .error _ => false
      | .ok verify => verify == hex

/-- One hash of the loop of `cas_pack_reclaim`, with the count of what is removed. -/
def reclaimOne (cs : Codecs) (flt : Faults) (pack : Pack) (sr : Store × Nat) (bin : Bytes) : Store × Nat :=
  if reclaimable cs flt pack (toHex bin) then
    match casRemove flt sr.1 (toHex bin) with
    | (.ok, st) => (st, sr.2 + 1)
    | (_, st) => (st, sr.2)
  else sr

/-- `cas_pack_reclaim`: the store and `*removed_out`; it returns `CAS_OK` whatever happens. -/
def casPackReclaim (cs : Codecs) (flt : Faults) (st : Store) (path : Bytes) : Store × Nat :=
  match casPackOpen (flt .openPack) (st.file path) with
  | none => (st, 0)
  | some pack =>
    let st := casReloadPack flt st
    (collectHashes flt st none).foldl (reclaimOne cs flt pack) (st, 0)

/-! ## What the loop removes -/

/-- A store that has lost loose files of which `P` holds, and nothing else. -/
structure LosesOnly (P : Bytes → Prop) (st st' : Store) : Prop where
  handle : st'.pack = st.pack
  file : st'.file = st.file
  loose : ∀ hash, st'.loose.lookup hash = st.loose.lookup hash ∨ st'.loose.lookup hash = none ∧ P hash

theorem LosesOnly.refl (P : Bytes → Prop) (st : Store) : LosesOnly P st st := ⟨rfl, rfl, fun _ => .inl rfl⟩

/-- What the pack may stand in for is lost. -/
abbrev ReclaimedFrom (cs : Codecs) (flt : Faults) (pack : Pack) : Store → Store → Prop :=
  LosesOnly fun hash => reclaimable cs flt pack hash = true

theorem casRemove_lookup (flt : Faults) (st : Store) (hash other : Bytes) :
    (casRemove flt st hash).2.loose.lookup other = st.loose.lookup other ∨
      other = hash ∧ (casRemove flt st hash).2.loose.lookup other = none := by
  unfold casRemove
  split
  · exact .inl rfl
  · split
    · exact .inl rfl
    · split
      · exact .inl rfl
      · by_cases h : other = hash
        · rw [h]
          exact .inr ⟨rfl, AList.lookup_erase _ _⟩
        · exact .inl (AList.lookup_erase_ne h)

theorem casRemove_rest (flt : Faults) (st : Store) (hash : Bytes) :
    (casRemove flt st hash).2.pack = st.pack ∧ (casRemove flt st hash).2.file = st.file := by
  unfold casRemove
  split
  · exact ⟨rfl, rfl⟩
  · split
    · exact ⟨rfl, rfl⟩
    · split <;> exact ⟨rfl, rfl⟩

/-- A file that can be unlinked is gone when it is removed. -/
theorem casRemove_unlinked (flt : Faults) (st : Store) (hash : Bytes) (hv : validHash hash = true)
    (hu : flt (.unlinkObj hash) = false) : (casRemove flt st hash).2.loose.lookup hash = none := by
  unfold casRemove
  rw [if_neg (by simp [hv])]
  by_cases hl : st.hasLoose hash = false
  · rw [if_pos hl]
    unfold Store.hasLoose at hl
    simpa using hl
  · rw [if_neg hl, if_neg (by simp [hu])]
    exact AList.lookup_erase _ _

theorem casRemove_gone (st : Store) (hash : Bytes) (hv : validHash hash = true) :
    (casRemove noFaults st hash).2.loose.lookup hash = none := casRemove_unlinked noFaults st hash hv rfl

/-- Removing a file of which `P` holds. -/
theorem LosesOnly.remove {P : Bytes → Prop} {st st' : Store} (h : LosesOnly P st st') (flt : Faults) (hash : Bytes)
    (hp : P hash) : LosesOnly P st (casRemove flt st' hash).2 := by
  obtain ⟨h1, h2⟩ := casRemove_rest flt st' hash
  refine ⟨h1.trans h.handle, h2.trans h.file, fun other => ?_⟩
  rcases casRemove_lookup flt st' hash other with hl | ⟨rfl, hl⟩
  · rw [hl]
    exact h.loose other
  · exact .inr ⟨hl, hp⟩

section
variable (cs : Codecs) (flt : Faults) (pack : Pack)

theorem reclaimOne_store (sr : Store × Nat) (bin : Bytes) :
    (reclaimOne cs flt pack sr bin).1 =
      if reclaimable cs flt pack (toHex bin) then (casRemove flt sr.1 (toHex bin)).2 else sr.1 := by
  unfold reclaimOne
  split
  · cases h : casRemove flt sr.1 (toHex bin) with
    | mk rc st => cases rc <;> rfl
  · rfl

theorem reclaimOne_step (st : Store) (sr : Store × Nat) (bin : Bytes) (h : ReclaimedFrom cs flt pack st sr.1) :
    ReclaimedFrom cs flt pack st (reclaimOne cs flt pack sr bin).1 := by
  rw [reclaimOne_store]
  by_cases hr : reclaimable cs flt pack (toHex bin) = true
  · rw [if_pos hr]
    exact h.remove flt (toHex bin) hr
  · rw [if_neg hr]
    exact h

theorem reclaim_loop (st : Store) (bins : List Bytes) (sr : Store × Nat) (h : ReclaimedFrom cs flt pack st sr.1) :
    ReclaimedFrom cs flt pack st (bins.foldl (reclaimOne cs flt pack) sr).1 := by
  induction bins generalizing sr with
  | nil => exact h
  | cons bin bins ih => exact ih _ (reclaimOne_step cs flt pack st sr bin h)

/-- A loose copy the pack stands in for is gone once the loop has met it and nothing fails. -/
theorem reclaim_loop_gone (bins : List Bytes) (sr : Store × Nat) (bin : Bytes) (hm : bin ∈ bins)
    (hr : reclaimable cs noFaults pack (toHex bin) = true) (hv : validHash (toHex bin) = true) :
    (bins.foldl (reclaimOne cs noFaults pack) sr).1.loose.lookup (toHex bin) = none := by
  induction bins generalizing sr with
  | nil => cases hm
  | cons x xs ih =>
    rcases List.mem_cons.mp hm with rfl | hm
    · have hgone : (reclaimOne cs noFaults pack sr bin).1.loose.lookup (toHex bin) = none := by
        rw [reclaimOne_store, if_pos hr]
        exact casRemove_gone sr.1 (toHex bin) hv
      have hrest := reclaim_loop cs noFaults pack (reclaimOne cs noFaults pack sr bin).1 xs
        (reclaimOne cs noFaults pack sr bin) (LosesOnly.refl _ _)
      rcases hrest.loose (toHex bin) with h | ⟨h, -⟩
      · exact h.trans hgone
      · exact h
    · exact ih _ hm

/-- A listed loose copy that the pack at the path stands in for is removed when nothing fails. -/
theorem casPackReclaim_gone (st : Store) (path bin : Bytes)
    (hopen : casPackOpen (noFaults .openPack) (st.file path) = some pack) (hlow : LowerHash (toHex bin))
    (hl : st.hasLoose (toHex bin) = true) (hr : reclaimable cs noFaults pack (toHex bin) = true) :
    (casPackReclaim cs noFaults st path).1.loose.lookup (toHex bin) = none := by
  unfold casPackReclaim
  simp only [hopen]
  refine reclaim_loop_gone cs pack _ _ bin ?_ hr hlow.valid
  rw [mem_collectHashes_noFaults]
  refine ⟨toHex bin, List.mem_append_left _ ?_, binOf_toHex bin⟩
  exact (mem_casForeach _ _ _).mpr ⟨rfl, hl, foreachLists_lower _ hlow⟩

/-- What the call does: nothing without a pack at the path; else it opens the depot's pack anew and
removes loose files that pack stands in for. -/
theorem casPackReclaim_spec (st : Store) (path : Bytes) :
    (casPackReclaim cs flt st path).1 = st ∧ casPackOpen (flt .openPack) (st.file path) = none ∨
      ∃ pack, casPackOpen (flt .openPack) (st.file path) = some pack ∧
        ReclaimedFrom cs flt pack (casReloadPack flt st) (casPackReclaim cs flt st path).1 := by
  unfold casPackReclaim
  cases hp : casPackOpen (flt .openPack) (st.file path) with
  | none => exact .inl ⟨rfl, rfl⟩
  | some pack =>
    exact .inr ⟨pack, rfl, reclaim_loop cs flt pack _ _ _ (LosesOnly.refl _ _)⟩

end

/-! ## Copies on disk -/

/-- The read of an address in the packfile at a path. -/
def copyAt (cs : Codecs) (st : Store) (path hash : Bytes) : Except Status Object :=
  match casPackOpen false (st.file path) with
  | none => .error .enotfound
  | some p => casPackLookup cs false p hash

theorem copyAt_of_open (cs : Codecs) (st : Store) (path hash : Bytes) (p : Pack)
    (h : casPackOpen false (st.file path) = some p) : copyAt cs st path hash = casPackLookup cs false p hash := by
  unfold copyAt
  rw [h]

/-- A read gives an object that passes the check. -/
def Passes (r : Except Status Object) (hash : Bytes) : Prop := ∃ obj, r = .ok obj ∧ Admitted obj hash

/-- Some stored copy passes the check: the loose one or the one in the depot's own pack. -/
def GoodCopy (cs : Codecs) (st : Store) (hash : Bytes) : Prop :=
  Passes (looseCopy cs st hash) hash ∨ Passes (copyAt cs st packDat hash) hash

theorem casPackOpen_noFault (fails : Bool) (file : Option Bytes) (p : Pack) (h : casPackOpen fails file = some p) :
    casPackOpen false file = some p := by
  cases fails with
  | false => exact h
  | true =>
    unfold casPackOpen at h
    cases file <;> simp at h

/-- With no loose file, the depot's own pack decides. -/
theorem not_goodCopy (cs : Codecs) (st : Store) (hash : Bytes) (pack : Pack) (obj : Object)
    (hl : st.loose.lookup hash = none) (hopen : casPackOpen false (st.file packDat) = some pack)
    (hlook : casPackLookup cs false pack hash = .ok obj) (hno : ¬ Admitted obj hash) : ¬ GoodCopy cs st hash := by
  rintro (⟨other, hcopy, -⟩ | ⟨other, hcopy, hadm⟩)
  · unfold looseCopy at hcopy
    rw [hl] at hcopy
    cases hcopy
  · rw [copyAt_of_open cs st packDat hash pack hopen, hlook] at hcopy
    rw [← Except.ok.inj hcopy] at hadm
    exact hno hadm

/-- What the confirmation has seen: the pack's copy decodes, and hashes to the address unless it is an htree. -/
theorem reclaimable_spec (cs : Codecs) (flt : Faults) (pack : Pack) (hash : Bytes)
    (h : reclaimable cs flt pack hash = true) :
    ∃ obj, casPackLookup cs false pack hash = .ok obj ∧
      (obj.1 = tHtree ∨ casHashObject obj.1 obj.2 = .ok hash) := by
  unfold reclaimable at h
  cases hl : casPackLookup cs (flt (.bufObj hash)) pack hash with
  | error rc => simp [hl] at h
  | ok obj =>
    obtain ⟨type, data⟩ := obj
    simp only [hl] at h
    refine ⟨(type, data), casPackLookup_noBuf cs hash _ pack _ hl, ?_⟩
    split at h
    · next hre => exact .inl (by simpa [casTypeIsReencoded] using hre)
    · cases hh : casHashObject type data with
      | error rc => simp [hh] at h
      | ok verify =>
        simp only [hh, beq_iff_eq] at h
        exact .inr (by rw [h])

/-- An htree is confirmed by its decoding alone. -/
theorem reclaimable_htree (cs : Codecs) (pack : Pack) (hash data : Bytes)
    (h : casPackLookup cs false pack hash = .ok (tHtree, data)) : reclaimable cs noFaults pack hash = true := by
  unfold reclaimable
  rw [show noFaults (.bufObj hash) = false from rfl, h]
  rfl

/-- **Reclaiming keeps a copy**: one that passes its check, loose, in the depot's own pack or in the pack
at the path, unless that pack's copy is an htree, which was only decoded, or collides with the loose one. -/
theorem reclaim_keeps_a_copy (cs : Codecs) (flt : Faults) (st : Store) (path hash : Bytes)
    (h : GoodCopy cs st hash) :
    GoodCopy cs (casPackReclaim cs flt st path).1 hash ∨
      ∃ obj, copyAt cs (casPackReclaim cs flt st path).1 path hash = .ok obj ∧
        (Admitted obj hash ∨ obj.1 = tHtree ∨
          ∃ lost, looseCopy cs st hash = .ok lost ∧ Collide (canonical lost) obj) := by
  rcases casPackReclaim_spec cs flt st path with ⟨hsame, -⟩ | ⟨pack, hopen, hfrom⟩
  · rw [hsame]
    exact .inl h
  · generalize (casPackReclaim cs flt st path).1 = st' at hfrom ⊢
    have hfile : st'.file = st.file := hfrom.file
    rcases h with ⟨lost, hlost, hadm⟩ | hpack
    · rcases hfrom.loose hash with hl | ⟨-, hr⟩
      · have hcopy : looseCopy cs st' hash = looseCopy cs st hash := by
          unfold looseCopy
          rw [hl]
          rfl
        exact .inl (.inl ⟨lost, hcopy.trans hlost, hadm⟩)
      · obtain ⟨obj, hlook, hseen⟩ := reclaimable_spec cs flt pack hash hr
        refine .inr ⟨obj, ?_, ?_⟩
        · rw [copyAt_of_open cs st' path hash pack (by rw [hfile]; exact casPackOpen_noFault _ _ _ hopen)]
          exact hlook
        · rcases hseen with ht | hh
          · exact .inr (.inl ht)
          · by_cases heq : canonical lost = obj
            · left
              rw [← heq]
              exact admitted_canonical lost hash hadm
            · exact .inr (.inr ⟨lost, hlost, heq, hash, casHashObject_canonical lost hash hadm, hh⟩)
    · left
      right
      unfold copyAt at hpack ⊢
      rw [hfile]
      exact hpack

/-- The depot with the empty directory in both forms keeps a good copy. -/
theorem reclaim_keeps_bothForms :
    GoodCopy [] (casPackReclaim [] noFaults bothForms packDat).1 (toHex emptyDirBin) ∨
      ∃ obj, copyAt [] (casPackReclaim [] noFaults bothForms packDat).1 packDat (toHex emptyDirBin) = .ok obj ∧
        (Admitted obj (toHex emptyDirBin) ∨ obj.1 = tHtree ∨
          ∃ lost, looseCopy [] bothForms (toHex emptyDirBin) = .ok lost ∧ Collide (canonical lost) obj) :=
  reclaim_keeps_a_copy [] noFaults bothForms packDat (toHex emptyDirBin)
    (.inl ⟨_, looseCopy_bothForms, admitted_emptyDir true⟩)

/-! ## An htree that only decodes -/

theorem packable_forged : Packable (tHtree, [0]) :=
  packable_of_small tHtree [0] (by decide) (by decide) (by decide) (by decide)

theorem forged_not_admitted (hash : Bytes) : ¬ Admitted (tHtree, [0]) hash := by
  intro h
  have hc := (casTreeCheckObject_iff false tHtree [0] hash).mp h
  rw [if_pos rfl] at hc
  obtain ⟨dir, hparse, -⟩ := htreeVerify_ok false [0] hash hc
  have hno : htreeParseDir false [0] = .error .err := by decide
  rw [hno] at hparse
  cases hparse

/-- The empty directory's text in a loose file, and one octet called an htree at its address in the pack. -/
def forgedPack : Store :=
  oneAddress emptyDirBin length_emptyDirBin (tHtree, [0]) (treeForm false []) packable_forged

theorem looseCopy_forgedPack : looseCopy [] forgedPack (toHex emptyDirBin) = .ok (treeForm false []) :=
  looseCopy_oneAddress emptyDirBin _ _ _ packable_forged [] (storable_emptyDir false)

theorem open_forgedPack : ∃ pack, casPackOpen false (forgedPack.file packDat) = some pack ∧
    casPackLookup [] false pack (toHex emptyDirBin) = .ok (tHtree, [0]) :=
  ⟨_, oneAddress_open emptyDirBin _ (tHtree, [0]) (treeForm false []) packable_forged,
    casPackLookup_rawPack (tHtree, [0]) packable_forged [] emptyDirBin _ _ (casHexDecode_toHex _)⟩

/-- The loose text passes its check before the call; afterwards nothing at the address does. -/
theorem reclaim_loses_to_forged :
    GoodCopy [] forgedPack (toHex emptyDirBin) ∧
      ¬ GoodCopy [] (casPackReclaim [] noFaults forgedPack packDat).1 (toHex emptyDirBin) := by
  refine ⟨.inl ⟨_, looseCopy_forgedPack, admitted_emptyDir false⟩, ?_⟩
  have hlow : LowerHash (toHex emptyDirBin) := lowerHash_toHex _ length_emptyDirBin
  obtain ⟨pack, hopen, hlook⟩ := open_forgedPack
  have hstored : forgedPack.hasLoose (toHex emptyDirBin) = true := by
    by_contra hno
    have hnone := (looseCopy_enotfound_iff [] forgedPack _).mpr (by simpa using hno)
    rw [looseCopy_forgedPack] at hnone
    cases hnone
  -- the loose text is reclaimed, for the pack's htree decodes
  have hgone := casPackReclaim_gone [] pack forgedPack packDat emptyDirBin hopen hlow hstored
    (reclaimable_htree [] pack _ [0] hlook)
  have hfile : (casPackReclaim [] noFaults forgedPack packDat).1.file = forgedPack.file := by
    rcases casPackReclaim_spec [] noFaults forgedPack packDat with ⟨hsame, -⟩ | ⟨pack, -, hfrom⟩
    · rw [hsame]
    · exact hfrom.file
  exact not_goodCopy [] _ _ pack _ hgone (by rw [hfile]; exact hopen) hlook (forged_not_admitted _)

end Smolvfs
