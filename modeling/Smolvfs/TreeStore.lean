import Smolvfs.RawObject
import Smolvfs.Tree

/-!
# Storing a directory

Storing sorts the entries, so neither their order nor the form shows in the
address.  `tree_store_independent_iff`: in a depot whose copies are intact, a list
of distinct names loads, looks up and verifies the same in every order and in both
forms, except that `cas_tree_verify` passes an address on to `cas_fsck_object`
when the pack holds the text and a loose file the htree.
-/

namespace Smolvfs

open Octets

/-! ## Sorting -/

instance : Std.Total entryLe where
  total a b := by
    unfold entryLe
    by_cases h : nameCmp a.name b.name = .gt
    · right
      rw [(nameCmp_gt _ _).mp h]
      decide
    · exact .inl h

theorem entryLe_iff (a b : Entry) : entryLe a b ↔ nameCmp a.name b.name = .lt ∨ a.name = b.name := by
  unfold entryLe
  rw [← nameCmp_eq]
  cases nameCmp a.name b.name <;> simp

instance : IsTrans Entry entryLe where
  trans a b c hab hbc := by
    rw [entryLe_iff] at *
    rcases hab with hab | hab
    · rcases hbc with hbc | hbc
      · exact .inl (nameCmp_lt_trans _ _ _ hab hbc)
      · rw [← hbc]
        exact .inl hab
    · rw [hab]
      exact hbc

theorem sortEntries_perm (dir : Dir) : (sortEntries dir).Perm dir := List.perm_insertionSort entryLe dir

theorem sortEntries_sorted (dir : Dir) : (sortEntries dir).Pairwise entryLe :=
  List.pairwise_insertionSort entryLe dir

theorem NamesAscending.nodup {dir : Dir} (h : NamesAscending dir) : (dir.map Entry.name).Nodup := by
  rw [List.Nodup, List.pairwise_map]
  exact h.imp fun hlt => nameCmp_lt_ne _ _ hlt

/-- A sorted list has no equal neighbours exactly when it ascends. -/
theorem repeatsName_eq_false_iff (dir : Dir) (h : dir.Pairwise entryLe) :
    repeatsName dir = false ↔ NamesAscending dir := by
  induction dir with
  | nil => simp [repeatsName, NamesAscending]
  | cons a rest ih =>
    obtain ⟨ha, hrest⟩ := List.pairwise_cons.mp h
    cases rest with
    | nil => simp [repeatsName, NamesAscending]
    | cons b rest =>
      unfold repeatsName
      rw [Bool.or_eq_false_iff, ih hrest]
      constructor
      · rintro ⟨hne, hasc⟩
        have hab : nameCmp a.name b.name = .lt := by
          rcases (entryLe_iff a b).mp (ha b (by simp)) with hlt | heq
          · exact hlt
          · rw [(nameCmp_eq _ _).mpr heq] at hne
            cases hne
        refine List.pairwise_cons.mpr ⟨fun x hx => ?_, hasc⟩
        rcases List.mem_cons.mp hx with rfl | hx
        · exact hab
        · exact nameCmp_lt_trans _ _ _ hab ((List.pairwise_cons.mp hasc).1 x hx)
      · intro hasc
        obtain ⟨hfirst, hasc'⟩ := List.pairwise_cons.mp hasc
        refine ⟨?_, hasc'⟩
        rw [hfirst b (by simp)]
        rfl

/-- Sorting leaves no equal neighbours exactly when no name is repeated. -/
theorem repeatsName_sortEntries (dir : Dir) :
    repeatsName (sortEntries dir) = false ↔ (dir.map Entry.name).Nodup := by
  have hperm := ((sortEntries_perm dir).map Entry.name).nodup_iff
  rw [repeatsName_eq_false_iff _ (sortEntries_sorted dir)]
  constructor
  · intro h
    exact hperm.mp h.nodup
  · intro h
    have hnd := hperm.mpr h
    rw [List.Nodup, List.pairwise_map] at hnd
    refine (sortEntries_sorted dir).imp₂ (fun a b hle hne => ?_) hnd
    rcases (entryLe_iff a b).mp hle with hlt | heq
    · exact hlt
    · exact absurd heq hne

theorem sortEntries_ascending (dir : Dir) (h : (dir.map Entry.name).Nodup) : NamesAscending (sortEntries dir) :=
  (repeatsName_eq_false_iff _ (sortEntries_sorted dir)).mp ((repeatsName_sortEntries dir).mpr h)

theorem nameCmp_lt_asymm (a b : CStr) (h1 : nameCmp a b = .lt) (h2 : nameCmp b a = .lt) : False := by
  have := nameCmp_lt_trans a b a h1 h2
  rw [nameCmp_self] at this
  cases this

/-- **The order of insertion does not show** in the sorted list. -/
theorem sortEntries_of_perm (dir dir' : Dir) (h : (dir.map Entry.name).Nodup) (hp : dir'.Perm dir) :
    sortEntries dir' = sortEntries dir := by
  have hnd' : (dir'.map Entry.name).Nodup := (hp.map Entry.name).nodup_iff.mpr h
  refine List.Perm.eq_of_pairwise (fun a b _ _ h1 h2 => (nameCmp_lt_asymm _ _ h1 h2).elim)
    (sortEntries_ascending dir' hnd') (sortEntries_ascending dir h) ?_
  exact (sortEntries_perm dir').trans (hp.trans (sortEntries_perm dir).symm)

/-! ## The copies of a directory -/

/-- The two forms a directory is stored in. -/
def treeForm (useHtree : Bool) (dir : Dir) : Object :=
  if useHtree then (tHtree, htreeBuild dir) else (tTree, treeSerialize dir)

theorem tHtree_ne_tTree : tHtree ≠ tTree := by decide

/-- A copy is missing, or the directory in one of its forms. -/
def CopyOf (dir : Dir) (r : Except Status Object) : Prop :=
  r = .error .enotfound ∨ ∃ useHtree, r = .ok (treeForm useHtree dir)

/-- Every copy the depot has is admitted at its address. -/
structure Intact (cs : Codecs) (st : Store) : Prop where
  pack : ∀ hash, LowerHash hash → st.packed hash = true →
    ∃ obj, packCopy cs st hash = .ok obj ∧ Admitted obj hash
  loose : ∀ hash, LowerHash hash → st.hasLoose hash = true →
    ∃ obj, looseCopy cs st hash = .ok obj ∧ Admitted obj hash

/-- A copy the depot has at the address hashes to it, but is not the directory. -/
def StoredCollision (cs : Codecs) (st : Store) (hash : Bytes) (dir : Dir) : Prop :=
  ∃ obj, (packCopy cs st hash = .ok obj ∨ looseCopy cs st hash = .ok obj) ∧
    Collide (canonical obj) (tTree, treeSerialize dir)

section
variable (cs : Codecs) (st : Store) (hash : Bytes) (dir : Dir) (hp : ∀ e ∈ dir, e.Printable)
  (hs : NamesAscending dir)

include hp hs

/-- In an intact depot the copies at a directory's address are the directory. -/
theorem copyOf_of_intact (hst : Intact cs st) (hh : casHashObject tTree (treeSerialize dir) = .ok hash)
    (hlow : LowerHash hash) (hnc : ¬ StoredCollision cs st hash dir) :
    CopyOf dir (packCopy cs st hash) ∧ CopyOf dir (looseCopy cs st hash) := by
  have hform : ∀ obj, Admitted obj hash → (packCopy cs st hash = .ok obj ∨ looseCopy cs st hash = .ok obj) →
      ∃ useHtree, obj = treeForm useHtree dir := by
    intro obj had hcopy
    rcases admitted_cases obj dir hash hp hs hh had with h | h | h
    · exact ⟨false, h⟩
    · exact ⟨true, h⟩
    · exact absurd ⟨obj, hcopy, h⟩ hnc
  constructor
  · by_cases hpk : st.packed hash = true
    · obtain ⟨obj, hok, had⟩ := hst.pack hash hlow hpk
      obtain ⟨b, hb⟩ := hform obj had (.inl hok)
      exact .inr ⟨b, by rw [hok, hb]⟩
    · exact .inl ((packCopy_enotfound_iff cs st hash hlow.valid).mpr (by simpa using hpk))
  · by_cases hl : st.hasLoose hash = true
    · obtain ⟨obj, hok, had⟩ := hst.loose hash hlow hl
      obtain ⟨b, hb⟩ := hform obj had (.inr hok)
      exact .inr ⟨b, by rw [hok, hb]⟩
    · exact .inl ((looseCopy_enotfound_iff cs st hash).mpr (by simpa using hl))

variable (hlen : (htreeBuild dir).length < 2 ^ 32)

include hlen

/-- Either form of a directory loads as the directory and answers as it does. -/
theorem casTreeLoad_of_open (b : Bool) (ho : casOpenObject cs noFaults st hash = .ok (treeForm b dir)) :
    casTreeLoad cs noFaults st hash = .ok dir ∧
      ∀ name, casTreeLookup cs noFaults st hash name = dirFind dir name := by
  cases b with
  | false =>
    have hload : casTreeLoad cs noFaults st hash = treeTextLoad false (treeSerialize dir) := by
      unfold casTreeLoad
      rw [ho]
      rfl
    refine ⟨by rw [hload, treeTextLoad_serialize dir hp hs], fun name => ?_⟩
    have hlook : casTreeLookup cs noFaults st hash name = treeTextLookup (treeSerialize dir) name := by
      unfold casTreeLookup
      rw [ho]
      rfl
    rw [hlook, treeTextLookup_serialize dir name hp hs]
  | true =>
    have hload : casTreeLoad cs noFaults st hash = htreeParseDir false (htreeBuild dir) := by
      unfold casTreeLoad
      rw [ho]
      show (if tHtree = tTree then _ else if tHtree = tHtree then _ else _) = _
      rw [if_neg tHtree_ne_tTree, if_pos rfl]
      rfl
    refine ⟨by rw [hload, htreeParseDir_build dir hp hs hlen], fun name => ?_⟩
    have hlook : casTreeLookup cs noFaults st hash name = htreeLookupEntry (htreeBuild dir) name := by
      unfold casTreeLookup
      rw [ho]
      show (if tHtree = tHtree then _ else _) = _
      rw [if_pos rfl]
    rw [hlook, htreeLookupEntry_build dir hp hs hlen]

/-- **Verifying a directory that is stored**: intact, but for an address whose packed copy is the text
and whose loose copy is the htree. -/
theorem casTreeVerify_iff (hh : casHashObject tTree (treeSerialize dir) = .ok hash) (hlow : LowerHash hash)
    (hpack : CopyOf dir (packCopy cs st hash)) (hloose : CopyOf dir (looseCopy cs st hash))
    (b : Bool) (ho : casOpenObject cs noFaults st hash = .ok (treeForm b dir)) :
    casTreeVerify cs noFaults st hash = .ok ↔
      ¬ (packCopy cs st hash = .ok (treeForm false dir) ∧ looseCopy cs st hash = .ok (treeForm true dir)) := by
  obtain ⟨hdr, hform, haddr⟩ := casHashObject_spec tTree (treeSerialize dir) hash hh
  have hdig : fsckDigest tTree (treeSerialize dir) hash = .ok := by
    rw [haddr]
    exact fsckDigest_of_header _ _ hdr hform
  have hplain : ¬ casTypeIsReencoded tTree = true := by decide
  have hne : treeForm true dir ≠ treeForm false dir := by
    intro h
    exact absurd (congrArg CStr.bytes (Prod.mk.inj h).1) (by decide)
  cases b with
  | true =>
    -- an htree is verified where it stands, and the pack does not have the text
    have hver : casTreeVerify cs noFaults st hash = htreeVerify false (htreeBuild dir) hash := by
      unfold casTreeVerify
      rw [ho]
      show (if tHtree = tTree then _ else if tHtree ≠ tHtree then _ else _) = _
      rw [if_neg tHtree_ne_tTree, if_neg (by simp)]
      rfl
    rw [hver, htreeVerify_build dir hash hp hs hlen hh]
    refine iff_of_true rfl ?_
    rintro ⟨h1, -⟩
    rw [casOpenObject_of_packCopy cs st hash hlow.valid _ h1] at ho
    exact hne (Except.ok.inj ho).symm
  | false =>
    have hver : casTreeVerify cs noFaults st hash = casFsckObject cs noFaults st hash := by
      unfold casTreeVerify
      rw [ho]
      show (if treeTextVerify false (treeSerialize dir) ≠ .ok then _ else _) = _
      rw [treeTextVerify_serialize dir hp hs]
      rfl
    rw [hver]
    rcases hloose with hl | ⟨b', hl⟩
    · rcases hpack with hpk | ⟨b'', hpk⟩
      · rw [casOpenObject_of_looseCopy cs st hash hlow.valid hpk, hl] at ho
        cases ho
      · have hb : b'' = false := by
          rw [casOpenObject_of_packCopy cs st hash hlow.valid _ hpk] at ho
          cases b'' with
          | false => rfl
          | true => exact absurd (Except.ok.inj ho) hne
        rw [hb] at hpk
        rw [casFsckObject_of_packCopy cs st hash hlow.valid tTree (treeSerialize dir) hl hpk, if_neg hplain]
        refine iff_of_true hdig ?_
        rintro ⟨-, h2⟩
        rw [hl] at h2
        cases h2
    · cases b' with
      | false =>
        rw [casFsckObject_of_looseCopy cs st hash hlow.valid tTree (treeSerialize dir) hl, if_neg hplain]
        refine iff_of_true hdig ?_
        rintro ⟨-, h2⟩
        rw [hl] at h2
        exact hne (Except.ok.inj h2).symm
      | true =>
        rw [casFsckObject_of_looseCopy cs st hash hlow.valid tHtree (htreeBuild dir) hl]
        have hre : casTypeIsReencoded tHtree = true := by decide
        rw [if_pos hre]
        refine iff_of_false (by simp) ?_
        rw [not_not]
        refine ⟨?_, hl⟩
        rcases hpack with hpk | ⟨b'', hpk⟩
        · rw [casOpenObject_of_looseCopy cs st hash hlow.valid hpk, hl] at ho
          exact absurd (Except.ok.inj ho) hne
        · rw [casOpenObject_of_packCopy cs st hash hlow.valid _ hpk] at ho
          rw [hpk, ho]

end

/-- The text of a directory, loose at an address, loads as the directory. -/
theorem casTreeLoad_rawText (cs : Codecs) (st : Store) {hash : Bytes} {dir : Dir} {now : Int} (hv : validHash hash = true)
    (hpk : st.packed hash = false) (hl : st.loose.lookup hash = some ⟨rawFile (tTree, treeSerialize dir), now⟩)
    (hw : ∀ e ∈ dir, e.Written) (hs : NamesAscending dir) (hlen : (treeSerialize dir).length + 64 ≤ 2 ^ 30) :
    casTreeLoad cs noFaults st hash = .ok dir := by
  have hst : Storable (tTree, treeSerialize dir) := storable_of_small tTree _ (by decide) (by decide) (by decide) hlen
  have hopen := casOpenObject_of_loose cs st hash _ hv hpk hl
  unfold casTreeLoad
  rw [hopen, looseRead_rawFile _ hst cs]
  exact treeTextLoad_written dir hw hs

/-- A directory of one entry. -/
theorem casTreeLoad_oneEntry (cs : Codecs) (st : Store) {hash : Bytes} {e : Entry} {now : Int} (hv : validHash hash = true)
    (hpk : st.packed hash = false) (hl : st.loose.lookup hash = some ⟨rawFile (tTree, treeSerialize [e]), now⟩)
    (hw : e.Written) (hnum : (lineNumbers e).length < 2 ^ 20) : casTreeLoad cs noFaults st hash = .ok [e] := by
  refine casTreeLoad_rawText cs st hv hpk hl (by simpa using hw) (List.pairwise_singleton _ _) ?_
  have hline := length_entryLine e hw
  have hname := (validName_spec _ hw.name).2.1
  simp only [treeSerialize, List.length_cons, List.flatMap_cons, List.flatMap_nil, List.append_nil]
  omega

/-! ## The store itself -/

theorem storeFile_noFaults (st : Store) (hash data : Bytes) (now : Int) :
    storeFile noFaults st hash data now = .ok (st.setLoose hash ⟨data, now⟩) := rfl

theorem storable_treeForm (b : Bool) (dir : Dir) (htext : (treeSerialize dir).length < 2 ^ 29)
    (hbin : (htreeBuild dir).length < 2 ^ 29) : Storable (treeForm b dir) := by
  cases b with
  | false => exact storable_of_small tTree _ (by decide) (by decide) (by decide) (by omega)
  | true => exact storable_of_small tHtree _ (by decide) (by decide) (by decide) (by omega)

section
variable (st : Store) (hash : Bytes) (dir dir' : Dir) (now : Int) (b : Bool)
  (hnd : (dir.map Entry.name).Nodup) (hperm : dir'.Perm dir)
  (htext : (treeSerialize (sortEntries dir)).length < 2 ^ 29)
  (hbin : (htreeBuild (sortEntries dir)).length < 2 ^ 29)
  (hh : casHashObject tTree (treeSerialize (sortEntries dir)) = .ok hash) (hv : validHash hash = true)

include hnd hperm htext hbin hh hv

/-- What a store does: nothing to a depot that has the address, and one file more otherwise. -/
theorem casTreeStore_run :
    casTreeStore noFaults st b dir' now =
      .ok (if Fresh st hash then st.setLoose hash ⟨rawFile (treeForm b (sortEntries dir)), now⟩ else st, hash) := by
  have hrep : repeatsName (sortEntries dir) = false := (repeatsName_sortEntries dir).mpr hnd
  obtain ⟨hdr, hform, haddr⟩ := casHashObject_spec _ _ hash hh
  have hst := storable_treeForm b (sortEntries dir) htext hbin
  have h56 : ∀ h : Bytes, h.length ≤ 32 → ¬ h.length > CAS_PACK_HEADER_LEN := by
    intro h hle
    unfold CAS_PACK_HEADER_LEN
    omega
  unfold casTreeStore
  simp only [sortEntries_of_perm dir dir' hnd hperm, hrep]
  rw [if_neg (by simp), if_neg (by simp [noFaults])]
  cases b with
  | false =>
    have hhdr : formatHeader tTree (treeSerialize (sortEntries dir)).length = some hdr := hform
    have heq := hst.header
    rw [show formatHeader (treeForm false (sortEntries dir)).1 (treeForm false (sortEntries dir)).2.length =
      some hdr from hform] at heq
    rw [if_neg (by simp)]
    unfold casPutObject
    simp only [hhdr, if_neg (h56 hdr (formatHeader_spec _ _ _ hform).2.2.2), ← haddr]
    by_cases hf : Fresh st hash
    · rw [if_neg hf.not_stored, if_pos hf, storeFile_noFaults, Option.some.inj heq]
      rfl
    · rw [if_neg hf, if_pos]
      simpa [Fresh, -not_and, not_and_or] using hf
  | true =>
    rw [if_pos rfl, hh]
    simp only []
    by_cases hf : Fresh st hash
    · have hex := (fresh_iff st hash hv).mp hf
      rw [hex, if_neg (by simp), if_neg (by simp [noFaults]), if_pos hf]
      unfold casPutObjectAt
      rw [if_neg (by simp [hv])]
      have hform' : formatHeader tHtree (htreeBuild (sortEntries dir)).length =
          some (headerText tHtree (htreeBuild (sortEntries dir)).length ++ [0]) := hst.header
      simp only [hform', if_neg (h56 _ (formatHeader_spec _ _ _ hform').2.2.2), if_neg hf.not_stored]
      rw [storeFile_noFaults]
      rfl
    · rw [if_neg hf, if_pos]
      by_contra hex
      exact hf ((fresh_iff st hash hv).mpr (by simpa using hex))

end

/-- A repeated name is refused, whatever the order and the form. -/
theorem casTreeStore_repeated (flt : Faults) (st : Store) (b : Bool) (dir dir' : Dir) (now : Int)
    (hnd : ¬ (dir.map Entry.name).Nodup) (hperm : dir'.Perm dir) :
    casTreeStore flt st b dir' now = .error .err := by
  have hrep : repeatsName (sortEntries dir') = true := by
    by_contra h
    have := (repeatsName_sortEntries dir').mp (by simpa using h)
    exact hnd ((hperm.map Entry.name).nodup_iff.mp this)
  unfold casTreeStore
  rw [if_pos hrep]

/-! ## The result -/

/-- What is stored at `hash` reads as the entries of `dir`. -/
structure StoredWell (cs : Codecs) (st : Store) (hash : Bytes) (dir : Dir) : Prop where
  load : ∃ out, casTreeLoad cs noFaults st hash = .ok out ∧ out.Perm dir ∧ NamesAscending out
  verify : casTreeVerify cs noFaults st hash = .ok
  present : ∀ e ∈ dir, casTreeLookup cs noFaults st hash e.name = .ok e
  absent : ∀ name, (∀ e ∈ dir, e.name ≠ name) → casTreeLookup cs noFaults st hash name = .error .enotfound

/-- Storing a list gives one address for every order and both forms, and the list back from it; or a
refusal when a name is repeated. -/
structure FormatIndependent (cs : Codecs) (st : Store) (now : Int) (dir : Dir) : Prop where
  distinct : (dir.map Entry.name).Nodup → ∃ hash, ∀ dir', dir'.Perm dir → ∀ useHtree, ∃ st',
    casTreeStore noFaults st useHtree dir' now = .ok (st', hash) ∧ StoredWell cs st' hash dir
  repeated : ¬ (dir.map Entry.name).Nodup → ∀ dir', dir'.Perm dir → ∀ useHtree,
    casTreeStore noFaults st useHtree dir' now = .error .err

/-- The depot has the directory twice: its text in the pack and its htree in a loose file. -/
def TwoForms (cs : Codecs) (st : Store) (dir : Dir) : Prop :=
  ∃ hash, casHashObject tTree (treeSerialize dir) = .ok hash ∧
    packCopy cs st hash = .ok (treeForm false dir) ∧ looseCopy cs st hash = .ok (treeForm true dir)

section
variable (cs : Codecs) (st : Store) (hash : Bytes) (dir : Dir)

theorem open_of_copies (hv : validHash hash = true) (hpack : CopyOf dir (packCopy cs st hash))
    (hloose : CopyOf dir (looseCopy cs st hash))
    (hex : packCopy cs st hash ≠ .error .enotfound ∨ looseCopy cs st hash ≠ .error .enotfound) :
    ∃ b, casOpenObject cs noFaults st hash = .ok (treeForm b dir) := by
  rcases hpack with hpk | ⟨b, hpk⟩
  · rcases hloose with hl | ⟨b, hl⟩
    · rcases hex with h | h
      · exact absurd hpk h
      · exact absurd hl h
    · exact ⟨b, by rw [casOpenObject_of_looseCopy cs st hash hv hpk, hl]⟩
  · exact ⟨b, casOpenObject_of_packCopy cs st hash hv _ hpk⟩

/-- A directory stored at its address reads well exactly when it does not have two forms there. -/
theorem storedWell_iff (hp : ∀ e ∈ dir, e.Printable) (hnd : (dir.map Entry.name).Nodup)
    (hbin : (htreeBuild (sortEntries dir)).length < 2 ^ 32)
    (hh : casHashObject tTree (treeSerialize (sortEntries dir)) = .ok hash) (hlow : LowerHash hash)
    (hpack : CopyOf (sortEntries dir) (packCopy cs st hash))
    (hloose : CopyOf (sortEntries dir) (looseCopy cs st hash))
    (hex : packCopy cs st hash ≠ .error .enotfound ∨ looseCopy cs st hash ≠ .error .enotfound) :
    StoredWell cs st hash dir ↔
      ¬ (packCopy cs st hash = .ok (treeForm false (sortEntries dir)) ∧
        looseCopy cs st hash = .ok (treeForm true (sortEntries dir))) := by
  have hs := sortEntries_ascending dir hnd
  have hperm := sortEntries_perm dir
  have hp' : ∀ e ∈ sortEntries dir, e.Printable := fun e he => hp e (hperm.mem_iff.mp he)
  obtain ⟨b, ho⟩ := open_of_copies cs st hash _ hlow.valid hpack hloose hex
  obtain ⟨hload, hlook⟩ := casTreeLoad_of_open cs st hash _ hp' hs hbin b ho
  rw [← casTreeVerify_iff cs st hash _ hp' hs hbin hh hlow hpack hloose b ho]
  refine ⟨fun h => h.verify, fun h => ⟨⟨_, hload, hperm, hs⟩, h, ?_, ?_⟩⟩
  · intro e he
    rw [hlook e.name, dirFind_of_mem _ hs e (hperm.mem_iff.mpr he)]
  · intro name hno
    rw [hlook name, dirFind_of_absent _ name fun e he => hno e (hperm.mem_iff.mp he)]

end

/-- **Storing a tree does not depend on order or form**, and what is stored reads back, exactly when the
depot does not hold the directory as text in its pack and as an htree in a loose file; else an object of
the depot collides with the text. -/
theorem tree_store_independent_iff (cs : Codecs) (st : Store) (now : Int) (dir : Dir)
    (hp : ∀ e ∈ dir, e.Printable) (htext : (treeSerialize (sortEntries dir)).length < 2 ^ 29)
    (hbin : (htreeBuild (sortEntries dir)).length < 2 ^ 29) (hst : Intact cs st) :
    (FormatIndependent cs st now dir ↔ ((dir.map Entry.name).Nodup → ¬ TwoForms cs st (sortEntries dir))) ∨
      ∃ hash, casHashObject tTree (treeSerialize (sortEntries dir)) = .ok hash ∧
        StoredCollision cs st hash (sortEntries dir) := by
  obtain ⟨hash, hh, hlow⟩ := casHashObject_tree (treeSerialize (sortEntries dir)) (by omega)
  by_cases hnc : StoredCollision cs st hash (sortEntries dir)
  · exact .inr ⟨hash, hh, hnc⟩
  left
  have htwo : TwoForms cs st (sortEntries dir) ↔
      packCopy cs st hash = .ok (treeForm false (sortEntries dir)) ∧
        looseCopy cs st hash = .ok (treeForm true (sortEntries dir)) := by
    constructor
    · rintro ⟨hash', hh', h⟩
      rw [hh] at hh'
      rw [Except.ok.inj hh']
      exact h
    · exact fun h => ⟨hash, hh, h⟩
  by_cases hnd : (dir.map Entry.name).Nodup
  swap
  · exact iff_of_true ⟨fun h => absurd h hnd, fun _ dir' hperm b =>
      casTreeStore_repeated noFaults st b dir dir' now hnd hperm⟩ fun h => absurd h hnd
  have hs := sortEntries_ascending dir hnd
  have hp' : ∀ e ∈ sortEntries dir, e.Printable := fun e he => hp e ((sortEntries_perm dir).mem_iff.mp he)
  obtain ⟨hpack, hloose⟩ := copyOf_of_intact cs st hash _ hp' hs hst hh hlow hnc
  -- each store leaves a depot that reads well exactly when there are no two forms
  have hrun : ∀ dir', dir'.Perm dir → ∀ b, ∃ st', casTreeStore noFaults st b dir' now = .ok (st', hash) ∧
      (StoredWell cs st' hash dir ↔ ¬ TwoForms cs st (sortEntries dir)) := by
    intro dir' hperm b
    refine ⟨_, casTreeStore_run st hash dir dir' now b hnd hperm htext hbin hh hlow.valid, ?_⟩
    by_cases hf : Fresh st hash
    · have hnone : packCopy cs st hash = .error .enotfound :=
        (packCopy_enotfound_iff cs st hash hlow.valid).mpr hf.2
      rw [if_pos hf, htwo]
      have hnew : looseCopy cs (st.setLoose hash ⟨rawFile (treeForm b (sortEntries dir)), now⟩) hash =
          .ok (treeForm b (sortEntries dir)) := by
        rw [looseCopy_setLoose_self]
        exact looseRead_rawFile _ (storable_treeForm b _ htext hbin) cs
      rw [storedWell_iff cs (st.setLoose hash _) hash dir hp hnd (by omega) hh hlow hpack (.inr ⟨b, hnew⟩)
        (.inr (by rw [hnew]; simp))]
      rw [packCopy_setLoose, hnone]
      simp
    · rw [if_neg hf, htwo]
      refine storedWell_iff cs st hash dir hp hnd (by omega) hh hlow hpack hloose ?_
      by_contra hex
      rw [not_or, not_not, not_not] at hex
      exact hf ⟨(looseCopy_enotfound_iff cs st hash).mp hex.2,
        (packCopy_enotfound_iff cs st hash hlow.valid).mp hex.1⟩
  constructor
  · intro h _
    obtain ⟨hash', h'⟩ := h.distinct hnd
    obtain ⟨st', hst', hwell⟩ := h' dir (List.Perm.refl dir) false
    obtain ⟨st'', hst'', hiff⟩ := hrun dir (List.Perm.refl dir) false
    obtain ⟨rfl, rfl⟩ := Prod.mk.inj (Except.ok.inj (hst'.symm.trans hst''))
    exact hiff.mp hwell
  · intro h
    refine ⟨fun _ => ⟨hash, fun dir' hperm b => ?_⟩, fun hn => absurd hnd hn⟩
    obtain ⟨st', hst', hiff⟩ := hrun dir' hperm b
    exact ⟨st', hst', hiff.mpr (h hnd)⟩

/-- A directory of one file in a new depot. -/
theorem tree_store_independent_fileA : FormatIndependent [] Store.empty 0 [fileA] := by
  have hempty : Intact [] Store.empty := ⟨fun _ _ h => (by cases h), fun _ _ h => (by cases h)⟩
  rcases tree_store_independent_iff [] Store.empty 0 [fileA] fileA_printable (by decide +kernel)
    length_build_fileA hempty with h | ⟨hash, -, obj, hcopy, -⟩
  · refine h.mpr fun _ => ?_
    rintro ⟨hash, -, hpk, -⟩
    cases hpk
  · rcases hcopy with hcopy | hcopy <;> cases hcopy

/-! ## The empty directory in two forms -/

/-- The digest of the text `%`. -/
def emptyDirBin : Bytes := objBin (tTree, [37])

theorem length_emptyDirBin : emptyDirBin.length = CAS_HASH_LEN := length_digest2 _ _

theorem length_build_nil : (htreeBuild []).length < 2 ^ 29 := by
  decide +kernel

theorem storable_emptyDir (b : Bool) : Storable (treeForm b []) :=
  storable_treeForm b [] (by decide) length_build_nil

/-- A depot with the text of the empty directory in its pack and the htree of it in a loose file. -/
def bothForms : Store :=
  oneAddress emptyDirBin length_emptyDirBin (treeForm false []) (treeForm true [])
    (storable_emptyDir false).toPackable

theorem address_emptyDir : casHashObject tTree (treeSerialize []) = .ok (toHex emptyDirBin) :=
  casHashObject_objBin _ (storable_emptyDir false).toPackable

theorem admitted_emptyDir (b : Bool) : Admitted (treeForm b []) (toHex emptyDirBin) := by
  refine (casTreeCheckObject_iff false _ _ _).mpr ?_
  cases b with
  | false =>
    rw [if_neg (by decide)]
    exact ⟨address_emptyDir, fun _ => treeTextVerify_serialize [] (by simp) List.Pairwise.nil⟩
  | true =>
    rw [if_pos (by rfl)]
    exact htreeVerify_build [] _ (by simp) List.Pairwise.nil (Nat.lt_trans length_build_nil (by decide))
      address_emptyDir

theorem packCopy_bothForms (hash : Bytes) (hh : casHexDecode hash = some emptyDirBin) :
    packCopy [] bothForms hash = .ok (treeForm false []) :=
  packCopy_oneAddress emptyDirBin _ _ _ _ [] hash hh

theorem looseCopy_bothForms : looseCopy [] bothForms (toHex emptyDirBin) = .ok (treeForm true []) :=
  looseCopy_oneAddress emptyDirBin _ _ _ _ [] (storable_emptyDir true)

theorem intact_bothForms : Intact [] bothForms where
  pack hash hlow hpk := by
    have hh := packed_oneAddress emptyDirBin _ _ _ _ hash hlow.valid hpk
    refine ⟨_, packCopy_bothForms hash hh, ?_⟩
    rw [← (hlow.toHex_decode hh).1]
    exact admitted_emptyDir false
  loose hash _ hl := by
    rw [hasLoose_oneAddress emptyDirBin _ _ _ _ hash hl]
    exact ⟨_, looseCopy_bothForms, admitted_emptyDir true⟩

/-- The empty directory, intact in both forms, is not verified. -/
theorem tree_two_forms_not_verified : Intact [] bothForms ∧ ¬ FormatIndependent [] bothForms 0 [] := by
  refine ⟨intact_bothForms, fun h => ?_⟩
  obtain ⟨hash, h'⟩ := h.distinct List.nodup_nil
  obtain ⟨st', hst', hwell⟩ := h' [] (List.Perm.refl _) false
  have hlow : LowerHash (toHex emptyDirBin) := lowerHash_toHex _ length_emptyDirBin
  have hpack := packCopy_bothForms (toHex emptyDirBin) (casHexDecode_toHex _)
  have hstored : ¬ Fresh bothForms (toHex emptyDirBin) := by
    rintro ⟨hl, -⟩
    have hcopy := looseCopy_bothForms
    rw [(looseCopy_enotfound_iff [] bothForms _).mpr hl] at hcopy
    cases hcopy
  have hrun := casTreeStore_run bothForms (toHex emptyDirBin) [] [] 0 false List.nodup_nil (List.Perm.refl _)
    (by decide) length_build_nil address_emptyDir hlow.valid
  rw [if_neg hstored, hst'] at hrun
  obtain ⟨rfl, rfl⟩ := Prod.mk.inj (Except.ok.inj hrun)
  refine (storedWell_iff [] bothForms _ [] (by simp) List.nodup_nil (Nat.lt_trans length_build_nil (by decide))
    address_emptyDir hlow (.inr ⟨false, hpack⟩) (.inr ⟨true, looseCopy_bothForms⟩) (.inl (by rw [hpack]; simp))).mp
      hwell ?_
  exact ⟨hpack, looseCopy_bothForms⟩

end Smolvfs
