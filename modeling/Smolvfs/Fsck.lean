import Smolvfs.RefRuns

/-!
# Checking a depot

`fsck_tree` and `cas_tree_fsck` of `cas-tree.c`: every ref that can be read is
walked, its directories are verified and loaded and its files checked, and what is
amiss is reported and counted.

`fsck_clean_iff`: where a check returns `CAS_OK` and reports nothing, every root file
is readable and every object reachable from the roots is read and passes its check
exactly when the three things the check does not look at are in order: root files
that cannot be read, the pack's copy of an object that is a loose file as well, and
the spelling of a tree that is named as a file.
-/

namespace Smolvfs

open Octets Walk

/-! ## The check -/

/-- `CAS_TREE_FSCK_*` -/
inductive TreeFsck
  | missing | corrupt | badTree | nocodec | foreign
  deriving DecidableEq, Repr

/-- A call of the callback. -/
structure FsckReport where
  path : Bytes
  hash : Bytes
  status : TreeFsck
  deriving DecidableEq

/-- The reports so far, and `*errors`. -/
structure FsckState where
  reports : List FsckReport
  errors : Nat

/-- `childpath`, cut to its buffer. -/
def childPath (path : Bytes) (name : CStr) : Bytes :=
  (if path = [47] then 47 :: name.bytes else path ++ 47 :: name.bytes).take 4095

section
variable (cs : Codecs) (flt : Faults) (st : Store) (fn : List FsckReport → Bool)

/-- A report and whether to stop; the callback answers to all it has been told. -/
def fsckReport (path hash : Bytes) (status : TreeFsck) (s : FsckState) : Bool × FsckState :=
  (fn (s.reports ++ [⟨path, hash, status⟩]), { s with reports := s.reports ++ [⟨path, hash, status⟩] })

/-- The same of something wrong. -/
def fsckError (path hash : Bytes) (status : TreeFsck) (s : FsckState) : Bool × FsckState :=
  fsckReport fn path hash status { s with errors := s.errors + 1 }

/-- An entry that is no directory. -/
def fsckLeaf (path hash : Bytes) (s : FsckState) : Bool × FsckState :=
  match casFsckObject cs flt st hash with
  | .ok => (false, s)
  | .nocodec => fsckReport fn path hash .nocodec s
  | .ioerr => fsckError fn path hash .missing s
  | _ => fsckError fn path hash .corrupt s

/-- The entries of a directory, up to one at which the callback stops; `child` is the check of a directory. -/
def fsckEntries (child : Bytes → Bytes → FsckState → Option (Bool × FsckState)) (path : Bytes) :
    Dir → FsckState → Option (Bool × FsckState)
  | [], s => some (false, s)
  | e :: es, s =>
    let r := if e.isDir then child (childPath path e.name) e.hash s
      else some (fsckLeaf cs flt st fn (childPath path e.name) e.hash s)
    match r with
    | none => none
    | some (true, s) => some (true, s)
    | some (false, s) => fsckEntries child path es s

/-- `fsck_tree`; `fuel` bounds the depth, and none is a recursion that goes deeper. -/
def fsckTree : Nat → Bytes → Bytes → FsckState → Option (Bool × FsckState)
  | 0, _, _, _ => none
  | fuel + 1, path, hash, s =>
    match casTreeVerify cs flt st hash with
    | .nocodec => some (fsckReport fn path hash .nocodec s)
    | .foreign => some (fsckReport fn path hash .foreign s)
    | .ioerr => some (fsckError fn path hash .missing s)
    | .ok =>
      match casTreeLoad cs flt st hash with
      | .error _ => some (fsckError fn path hash .badTree s)
      | .ok dir => fsckEntries cs flt st fn (fsckTree fuel) path dir s
    | _ => some (fsckError fn path hash .corrupt s)

/-- `fsck_ref`: a root that cannot be read is passed over. -/
def fsckRef (refs : Refs) (fuel : Nat) (s : FsckState) (name : Bytes) : Option FsckState :=
  match casTreeRefRead flt refs name with
  | .error _ => some s
  | .ok hash => (fsckTree cs flt st fn fuel [47] hash s).map Prod.snd

end

/-- `cas_tree_fsck`: its result and the reports. -/
def casTreeFsck (cs : Codecs) (flt : Faults) (fn : List FsckReport → Bool) (fuel : Nat) (ct : CasTree) :
    Option (Status × List FsckReport) :=
  ((casTreeRefForeach flt ct.refs).foldlM (fsckRef cs flt ct.store fn ct.refs fuel) ⟨[], 0⟩).map fun s =>
    (if s.errors = 0 then .ok else .err, s.reports)

/-! ## A check without reports -/

section
variable (cs : Codecs) (flt : Faults) (st : Store) (fn : List FsckReport → Bool)

/-- A directory that is verified and loaded, with all below it. -/
inductive Sound : Bytes → Prop
  | mk (hash : Bytes) (dir : Dir) (hver : casTreeVerify cs flt st hash = .ok)
      (hload : casTreeLoad cs flt st hash = .ok dir)
      (dirs : ∀ e ∈ dir, e.isDir = true → Sound e.hash)
      (files : ∀ e ∈ dir, e.isDir = false → casFsckObject cs flt st e.hash = .ok) : Sound hash

variable {cs flt st fn}

theorem fsckReport_length (path hash : Bytes) (status : TreeFsck) (s : FsckState) :
    (fsckReport fn path hash status s).2.reports.length = s.reports.length + 1 := by
  simp [fsckReport]

theorem fsckError_length (path hash : Bytes) (status : TreeFsck) (s : FsckState) :
    (fsckError fn path hash status s).2.reports.length = s.reports.length + 1 := by
  simp [fsckError, fsckReport]

/-- A file that is not reported has passed. -/
theorem fsckLeaf_quiet (path hash : Bytes) (s : FsckState) :
    s.reports.length ≤ (fsckLeaf cs flt st fn path hash s).2.reports.length ∧
      ((fsckLeaf cs flt st fn path hash s).2.reports.length = s.reports.length →
        (fsckLeaf cs flt st fn path hash s).1 = false ∧ casFsckObject cs flt st hash = .ok) := by
  unfold fsckLeaf
  split
  · next h => exact ⟨Nat.le_refl _, fun _ => ⟨rfl, h⟩⟩
  · rw [fsckReport_length]
    exact ⟨by omega, fun h => by omega⟩
  · rw [fsckError_length]
    exact ⟨by omega, fun h => by omega⟩
  · rw [fsckError_length]
    exact ⟨by omega, fun h => by omega⟩

/-- What a run of the check that reports nothing says of what it has gone through. -/
def Quiet (r : Option (Bool × FsckState)) (s : FsckState) (P : Prop) : Prop :=
  ∀ b s', r = some (b, s') → s.reports.length ≤ s'.reports.length ∧
    (s'.reports.length = s.reports.length → b = false ∧ P)

theorem fsckEntries_quiet (child : Bytes → Bytes → FsckState → Option (Bool × FsckState))
    (hchild : ∀ path hash s, Quiet (child path hash s) s (Sound cs flt st hash)) (path : Bytes) (dir : Dir)
    (s : FsckState) : Quiet (fsckEntries cs flt st fn child path dir s) s
      ((∀ e ∈ dir, e.isDir = true → Sound cs flt st e.hash) ∧
        ∀ e ∈ dir, e.isDir = false → casFsckObject cs flt st e.hash = .ok) := by
  induction dir generalizing s with
  | nil =>
    intro b s' h
    obtain ⟨rfl, rfl⟩ := Prod.mk.inj (Option.some.inj h)
    exact ⟨Nat.le_refl _, fun _ => ⟨rfl, by simp, by simp⟩⟩
  | cons e es ih =>
    intro b s' h
    unfold fsckEntries at h
    simp only [] at h
    -- the entry itself, a directory or not
    have hentry : Quiet (if e.isDir then child (childPath path e.name) e.hash s
        else some (fsckLeaf cs flt st fn (childPath path e.name) e.hash s)) s
        (if e.isDir then Sound cs flt st e.hash else casFsckObject cs flt st e.hash = .ok) := by
      by_cases hd : e.isDir = true
      · rw [if_pos hd, if_pos hd]
        exact hchild _ _ s
      · rw [if_neg hd, if_neg hd]
        intro b s' heq
        have hq : s.reports.length ≤ (fsckLeaf cs flt st fn (childPath path e.name) e.hash s).2.reports.length ∧ _ :=
          fsckLeaf_quiet (childPath path e.name) e.hash s
        rw [Option.some.inj heq] at hq
        exact hq
    split at h
    · cases h
    · next s1 hr =>
      obtain ⟨rfl, rfl⟩ := Prod.mk.inj (Option.some.inj h)
      obtain ⟨hle, hq⟩ := hentry true s1 hr
      exact ⟨hle, fun heq => absurd (hq heq).1 (by simp)⟩
    · next s1 hr =>
      obtain ⟨hle, hq⟩ := hentry false s1 hr
      obtain ⟨hle', hq'⟩ := ih s1 b s' h
      refine ⟨by omega, fun heq => ?_⟩
      obtain ⟨hb, hdirs, hfiles⟩ := hq' (by omega)
      have he := (hq (by omega)).2
      refine ⟨hb, ?_, ?_⟩
      · intro x hx hdir
        rcases List.mem_cons.mp hx with rfl | hx
        · rwa [if_pos hdir] at he
        · exact hdirs x hx hdir
      · intro x hx hdir
        rcases List.mem_cons.mp hx with rfl | hx
        · rwa [if_neg (by simp [hdir])] at he
        · exact hfiles x hx hdir

/-- **A directory the check goes through without a report is sound.** -/
theorem fsckTree_quiet (fuel : Nat) (path hash : Bytes) (s : FsckState) :
    Quiet (fsckTree cs flt st fn fuel path hash s) s (Sound cs flt st hash) := by
  induction fuel generalizing path hash s with
  | zero =>
    intro b s' h
    cases h
  | succ fuel ih =>
    have hreport : ∀ status : TreeFsck, Quiet (some (fsckReport fn path hash status s)) s (Sound cs flt st hash) := by
      intro status b s' h
      have hlen : (fsckReport fn path hash status s).2.reports.length = _ := fsckReport_length path hash status s
      rw [Option.some.inj h] at hlen
      exact ⟨by simp only [] at hlen; omega, fun heq => by simp only [] at hlen; omega⟩
    have herror : ∀ status : TreeFsck, Quiet (some (fsckError fn path hash status s)) s (Sound cs flt st hash) := by
      intro status b s' h
      have hlen : (fsckError fn path hash status s).2.reports.length = _ := fsckError_length path hash status s
      rw [Option.some.inj h] at hlen
      exact ⟨by simp only [] at hlen; omega, fun heq => by simp only [] at hlen; omega⟩
    unfold fsckTree
    split
    · exact hreport _
    · exact hreport _
    · exact herror _
    · next hver =>
      split
      · exact herror _
      · next dir hload =>
        intro b s' h
        obtain ⟨hle, hq⟩ := fsckEntries_quiet (fsckTree cs flt st fn fuel) ih path dir s b s' h
        refine ⟨hle, fun heq => ?_⟩
        obtain ⟨hb, hdirs, hfiles⟩ := hq heq
        exact ⟨hb, .mk hash dir hver hload hdirs hfiles⟩
    · exact herror _

/-- Of the refs gone through without a report, every one whose root is read is sound. -/
theorem fsckRefs_quiet (refs : Refs) (fuel : Nat) (names : List Bytes) (s s' : FsckState)
    (h : names.foldlM (fsckRef cs flt st fn refs fuel) s = some s') :
    s.reports.length ≤ s'.reports.length ∧ (s'.reports.length = s.reports.length →
      ∀ name ∈ names, ∀ hash, casTreeRefRead flt refs name = .ok hash → Sound cs flt st hash) := by
  induction names generalizing s with
  | nil =>
    obtain rfl := Option.some.inj h
    exact ⟨Nat.le_refl _, by simp⟩
  | cons name names ih =>
    rw [List.foldlM_cons] at h
    obtain ⟨s1, h1, h2⟩ := Option.bind_eq_some_iff.mp h
    obtain ⟨hle, hq⟩ := ih s1 h2
    have hone : s.reports.length ≤ s1.reports.length ∧ (s1.reports.length = s.reports.length →
        ∀ hash, casTreeRefRead flt refs name = .ok hash → Sound cs flt st hash) := by
      unfold fsckRef at h1
      split at h1
      · next rc hread =>
        obtain rfl := Option.some.inj h1
        exact ⟨Nat.le_refl _, fun _ hash hok => by rw [hread] at hok; cases hok⟩
      · next hash hread =>
        obtain ⟨⟨b, s2⟩, htree, rfl⟩ := Option.map_eq_some_iff.mp h1
        obtain ⟨hle, hq⟩ := fsckTree_quiet fuel [47] hash s b s2 htree
        refine ⟨hle, fun heq hash' hok => ?_⟩
        obtain rfl := Except.ok.inj (hread.symm.trans hok)
        exact (hq heq).2
    refine ⟨by omega, fun heq => ?_⟩
    intro x hx
    rcases List.mem_cons.mp hx with rfl | hx
    · exact hone.2 (by omega)
    · exact hq (by omega) x hx

end

/-! ## Which copy is checked -/

section
variable {cs : Codecs} {st : Store} {hash : Bytes}

theorem fsckDigest_ok (type : CStr) (data hdr : Bytes) (hf : formatHeader type data.length = some hdr)
    (h : fsckDigest type data hash = .ok) : casHashObject type data = .ok hash := by
  have hd := fsckDigest_of_header type data hdr hf
  unfold fsckDigest at h hd
  split at h
  · next heq =>
    split at hd
    · next heq' =>
      unfold casHashObject
      rw [hf, ← heq, heq']
    · cases hd
  · cases h

/-- A plain object that hashes to its address. -/
def PlainAt (hash : Bytes) (obj : Object) : Prop := obj.1 ≠ tHtree ∧ casHashObject obj.1 obj.2 = .ok hash

theorem plainAt_of_digest (type : CStr) (data hdr : Bytes) (cap : Option Nat) (n : Nat)
    (hp : parseHeaderWith cap hdr = some (type, n)) (hn : data.length = n) (hre : ¬ casTypeIsReencoded type = true)
    (h : fsckDigest type data hash = .ok) : PlainAt hash (type, data) := by
  obtain ⟨hdr', hf⟩ := parseHeaderWith_fits cap hdr type n hp
  refine ⟨?_, fsckDigest_ok type data hdr' (by rw [hn]; exact hf) h⟩
  rintro rfl
  exact hre (by decide)

/-- The check of a loose object is a check of the loose copy. -/
theorem casFsckObject_loose_ok (hx : cs.Exact) (f : LooseFile) (hl : st.loose.lookup hash = some f)
    (h : casFsckObject cs noFaults st hash = .ok) : ∃ obj, looseCopy cs st hash = .ok obj ∧ PlainAt hash obj := by
  unfold casFsckObject at h
  split at h
  · cases h
  · next hv =>
    unfold casOpenLooseRaw at h
    rw [if_neg hv, looseMap_noFaults, hl] at h
    simp only [] at h
    by_cases hsz : f.data.length < CAS_PACK_BLOCK ∨ f.data.length > 2 ^ 30
    · rw [if_pos hsz] at h
      cases h
    · rw [if_neg hsz] at h
      simp only [] at h
      cases hf : trailerFramed (objTrailer f.data) with
      | none => simp [hf] at h
      | some framed =>
        simp only [hf, reduceCtorEq, if_false] at h
        rw [trailerFramed_eq _ framed hf] at h
        cases hp : parseHeader (trailerHeader (objTrailer f.data)) with
        | none => simp [hp] at h
        | some th =>
          obtain ⟨type, n⟩ := th
          simp only [hp] at h
          split at h
          · cases h
          · next hre =>
            rw [show noFaults (.bufObj hash) = false from rfl] at h
            cases hd : casCodecRegionDecode cs false (objRegion f.data) framed n with
            | error rc =>
              rw [hd] at h
              cases rc <;> cases h
            | ok data =>
              rw [hd] at h
              refine ⟨(type, data), ?_, plainAt_of_digest type data _ _ n hp
                (regionDecode_length cs hx _ _ _ n data hd) hre h⟩
              unfold looseCopy looseRead looseDecode
              rw [hl]
              simp only [if_neg hsz, hf, hp, hd, Except.map]

/-- What a lookup in a pack gives is as long as its header, which fits, says. -/
theorem casPackLookup_header (hx : cs.Exact) (noBuf : Bool) (p : Pack) (type : CStr) (data : Bytes)
    (h : casPackLookup cs noBuf p hash = .ok (type, data)) :
    ∃ hdr, packParseHeader hdr = some (type, data.length) := by
  unfold casPackLookup at h
  split at h
  · cases h
  · split at h
    · cases h
    · next e _ =>
      simp only [] at h
      split at h
      · cases h
      · split at h
        · cases h
        · next framed _ =>
          split at h
          · cases h
          · next ty n hp =>
            generalize (if p.entryStored e ≠ 0 then p.entryStored e else n) = regionSize at h
            split at h
            · cases h
            · cases hd : casCodecRegionDecode cs noBuf (p.read (p.entryOffset e - regionSize) regionSize) framed n with
              | error rc =>
                rw [hd] at h
                cases h
              | ok data' =>
                rw [hd] at h
                obtain ⟨rfl, rfl⟩ := Prod.mk.inj (Except.ok.inj h)
                rw [regionDecode_length cs hx _ _ _ n _ hd]
                exact ⟨_, hp⟩

/-- The check of an object that is not loose is a check of the pack's copy. -/
theorem casFsckObject_packed_ok (hx : cs.Exact) (hl : st.hasLoose hash = false)
    (h : casFsckObject cs noFaults st hash = .ok) : ∃ obj, packCopy cs st hash = .ok obj ∧ PlainAt hash obj := by
  have hnone : st.loose.lookup hash = none := by
    unfold Store.hasLoose at hl
    simpa using hl
  unfold casFsckObject at h
  split at h
  · cases h
  · next hv =>
    have hraw : casOpenLooseRaw noFaults st hash = .error .enotfound := by
      unfold casOpenLooseRaw
      rw [if_neg hv, looseMap_noFaults, hnone]
    rw [hraw] at h
    unfold packCopy
    cases hp : st.pack with
    | none =>
      rw [hp] at h
      cases h
    | some p =>
      rw [hp] at h
      simp only [fsckPackedObject, show noFaults (.bufObj hash) = false from rfl] at h ⊢
      cases hlook : casPackLookup cs false p hash with
      | error rc =>
        rw [hlook] at h
        cases rc <;> cases h
      | ok obj =>
        obtain ⟨type, data⟩ := obj
        rw [hlook] at h
        simp only [] at h
        split at h
        · cases h
        · next hre =>
          obtain ⟨hdr, hparse⟩ := casPackLookup_header hx false p type data hlook
          exact ⟨_, rfl, plainAt_of_digest type data hdr none _ hparse rfl hre h⟩

theorem casFsckObject_ok_valid (h : casFsckObject cs noFaults st hash = .ok) : validHash hash = true := by
  unfold casFsckObject at h
  split at h
  · cases h
  · next hv => simpa using hv

theorem casTreeVerify_ok_valid (h : casTreeVerify cs noFaults st hash = .ok) : validHash hash = true := by
  unfold casTreeVerify at h
  cases ho : casOpenObject cs noFaults st hash with
  | ok obj => exact casOpenObject_ok_valid cs st hash noFaults obj ho
  | error rc =>
    rw [ho] at h
    cases rc <;> cases h

/-- What the pack has is read from it. -/
theorem casOpenObject_eq_packCopy (hv : validHash hash = true) (hp : st.packed hash = true) :
    casOpenObject cs noFaults st hash = packCopy cs st hash := by
  rw [casOpenObject_copies cs st hash hv]
  split
  · next hno =>
    rw [(packCopy_enotfound_iff cs st hash hv).mp hno] at hp
    cases hp
  · rfl

/-- **An object with one copy is read as it was checked.** -/
theorem casFsckObject_one_copy (hx : cs.Exact) (hone : st.packed hash = false ∨ st.hasLoose hash = false)
    (h : casFsckObject cs noFaults st hash = .ok) :
    ∃ obj, casOpenObject cs noFaults st hash = .ok obj ∧ PlainAt hash obj := by
  have hv := casFsckObject_ok_valid h
  cases hl : st.loose.lookup hash with
  | none =>
    have hno : st.hasLoose hash = false := by
      unfold Store.hasLoose
      rw [hl]
      rfl
    obtain ⟨obj, hcopy, hplain⟩ := casFsckObject_packed_ok hx hno h
    exact ⟨obj, casOpenObject_of_packCopy cs st hash hv obj hcopy, hplain⟩
  | some f =>
    have hyes : st.hasLoose hash = true := by
      unfold Store.hasLoose
      rw [hl]
      rfl
    obtain ⟨obj, hcopy, hplain⟩ := casFsckObject_loose_ok hx f hl h
    refine ⟨obj, ?_, hplain⟩
    have hnp : st.packed hash = false := hone.resolve_right (by simp [hyes])
    rw [casOpenObject_of_looseCopy cs st hash hv ((packCopy_enotfound_iff cs st hash hv).mpr hnp), hcopy]

end

/-! ## A clean depot -/

/-- The first line of a root file, without its newline. -/
def rootLine (data : Bytes) : Bytes :=
  let line := (CStr.ofBuf (data.take (fgetsLen (CAS_HASH_HEX + 2) data))).bytes
  if line.getLast? = some 10 then line.dropLast else line

/-- A ref whose name is a ref's and whose file begins with a line of the length of a hash. -/
def RootFits (refs : Refs) (name : Bytes) : Prop :=
  validRefName name = true ∧ ∃ data, refFile refs (name ++ dotRoot) = some data ∧ data ≠ [] ∧
    (rootLine data).length = CAS_HASH_HEX

theorem casTreeRefRead_ok_iff (refs : Refs) (name : Bytes) :
    (∃ hash, casTreeRefRead noFaults refs name = .ok hash) ↔ RootFits refs name := by
  unfold casTreeRefRead RootFits
  by_cases hn : validRefName name = true
  · rw [if_neg (by simp [hn])]
    cases hf : refFile refs (name ++ dotRoot) with
    | none => simp
    | some data =>
      by_cases hd : data = []
      · simp [hd, noFaults]
      · simp only [noFaults, Bool.false_eq_true, if_false, or_false, if_neg hd]
        show (∃ hash, (if (rootLine data).length ≠ CAS_HASH_HEX then .error .err else .ok (rootLine data) :
          Except Status Bytes) = .ok hash) ↔ _
        by_cases hlen : (rootLine data).length = CAS_HASH_HEX
        · simp [hlen, hn, hd]
        · simp [hlen]
  · simp [hn]

section
variable (cs : Codecs) (ct : CasTree)

/-- The roots of the refs that can be read. -/
def refRoots (refs : Refs) : List Bytes :=
  (casTreeRefForeach noFaults refs).filterMap fun name => (casTreeRefRead noFaults refs name).toOption

/-- What is reached from a root through directory entries, as a directory (`true`) or not. -/
def Reached (e : Bytes × Bool) : Prop := Reach (treeKids cs noFaults ct.store) (fun _ => True) (refRoots ct.refs) e

/-- A store that is readable and authentic. -/
structure ReadableAuthentic : Prop where
  roots : ∀ name ∈ casTreeRefForeach noFaults ct.refs, ∃ hash, casTreeRefRead noFaults ct.refs name = .ok hash
  objects : ∀ e, Reached cs ct e → ∃ obj, casOpenObject cs noFaults ct.store e.1 = .ok obj ∧
    casTreeCheckObject false obj.1 obj.2 e.1 = .ok

/-- A depot with nothing wrong where the check does not look: root files, the pack's copies of objects that
are loose as well, and the spelling of trees that are named as files. -/
structure NothingOverlooked : Prop where
  roots : ∀ name ∈ casTreeRefForeach noFaults ct.refs, RootFits ct.refs name
  packed : ∀ e, Reached cs ct e → ct.store.packed e.1 = true → ct.store.hasLoose e.1 = true →
    ∃ obj, packCopy cs ct.store e.1 = .ok obj ∧ Admitted obj e.1
  trees : ∀ hash, Reached cs ct (hash, false) → ∀ data, casOpenObject cs noFaults ct.store hash = .ok (tTree, data) →
    treeTextVerify false data = .ok

variable {cs ct}

/-- A clean check has gone through everything that is reached. -/
theorem reached_checked (h : ∀ root ∈ refRoots ct.refs, Sound cs noFaults ct.store root) (e : Bytes × Bool)
    (hr : Reached cs ct e) :
    if e.2 then Sound cs noFaults ct.store e.1 else casFsckObject cs noFaults ct.store e.1 = .ok := by
  induction hr with
  | root hr => exact h _ hr
  | @kid n k hn _ hk ih =>
    obtain ⟨_, dir, -, hload, hdirs, hfiles⟩ : Sound cs noFaults ct.store n := ih
    unfold treeKids at hk
    rw [hload] at hk
    obtain ⟨e, he, rfl⟩ := List.mem_map.mp hk
    cases hd : e.isDir with
    | true =>
      rw [if_pos rfl]
      exact hdirs e he hd
    | false =>
      rw [if_neg (by simp)]
      exact hfiles e he hd

theorem PlainAt.admitted {hash : Bytes} {obj : Object} (h : PlainAt hash obj)
    (ht : obj.1 = tTree → treeTextVerify false obj.2 = .ok) : Admitted obj hash := by
  refine (casTreeCheckObject_iff false _ _ _).mpr ?_
  rw [if_neg h.1]
  exact ⟨h.2, ht⟩

/-- A directory that is verified is admitted, when it has one copy. -/
theorem casTreeVerify_one_copy (hx : cs.Exact) {st : Store} {hash : Bytes}
    (hone : st.packed hash = false ∨ st.hasLoose hash = false) (h : casTreeVerify cs noFaults st hash = .ok) :
    ∃ obj, casOpenObject cs noFaults st hash = .ok obj ∧ Admitted obj hash := by
  unfold casTreeVerify at h
  cases ho : casOpenObject cs noFaults st hash with
  | error rc =>
    rw [ho] at h
    cases rc <;> cases h
  | ok obj =>
    obtain ⟨type, data⟩ := obj
    rw [ho] at h
    simp only [show noFaults (.growDir hash) = false from rfl] at h
    refine ⟨_, rfl, ?_⟩
    by_cases ht : type = tTree
    · rw [if_pos ht] at h
      split at h
      · next hne => exact absurd h hne
      · next hver =>
        obtain ⟨obj, hopen, hplain⟩ := casFsckObject_one_copy hx hone h
        obtain rfl : obj = (type, data) := Except.ok.inj (hopen.symm.trans ho)
        exact hplain.admitted fun _ => not_not.mp hver
    · rw [if_neg ht] at h
      split at h
      · cases h
      · next hh =>
        refine (casTreeCheckObject_iff false _ _ _).mpr ?_
        rw [if_pos (not_not.mp hh)]
        exact h

/-- **A clean check means a readable and authentic store exactly when nothing is wrong where it does not
look.** -/
theorem fsck_clean_iff (hx : cs.Exact) (fn : List FsckReport → Bool) (fuel : Nat)
    (h : casTreeFsck cs noFaults fn fuel ct = some (.ok, [])) : ReadableAuthentic cs ct ↔ NothingOverlooked cs ct := by
  obtain ⟨s, hfold, hs⟩ := Option.map_eq_some_iff.mp h
  obtain ⟨-, hnil⟩ := Prod.mk.inj hs
  have hq := (fsckRefs_quiet ct.refs fuel _ _ s hfold).2 (by rw [hnil])
  have hroots : ∀ root ∈ refRoots ct.refs, Sound cs noFaults ct.store root := by
    intro root hroot
    obtain ⟨name, hname, hread⟩ := List.mem_filterMap.mp hroot
    cases hr : casTreeRefRead noFaults ct.refs name with
    | error rc =>
      rw [hr] at hread
      cases hread
    | ok hash =>
      rw [hr] at hread
      obtain rfl := Option.some.inj hread
      exact hq name hname _ hr
  constructor
  · intro hok
    refine ⟨fun name hn => (casTreeRefRead_ok_iff _ name).mp (hok.roots name hn), ?_, ?_⟩
    · intro e he hp hl
      obtain ⟨obj, hopen, had⟩ := hok.objects e he
      exact ⟨obj, by rw [← casOpenObject_eq_packCopy (casOpenObject_ok_valid cs ct.store e.1 noFaults obj hopen) hp,
        hopen], had⟩
    · intro hash hr data hopen
      obtain ⟨obj, hopen', had⟩ := hok.objects _ hr
      obtain rfl : obj = (tTree, data) := Except.ok.inj (hopen'.symm.trans hopen)
      have hc := (casTreeCheckObject_iff false _ _ _).mp had
      rw [if_neg (show tTree ≠ tHtree by decide)] at hc
      exact hc.2 rfl
  · intro hno
    refine ⟨fun name hn => (casTreeRefRead_ok_iff _ name).mpr (hno.roots name hn), ?_⟩
    intro e he
    have hchecked := reached_checked hroots e he
    by_cases hboth : ct.store.packed e.1 = true ∧ ct.store.hasLoose e.1 = true
    · obtain ⟨obj, hcopy, had⟩ := hno.packed e he hboth.1 hboth.2
      have hv : validHash e.1 = true := by
        split at hchecked
        · obtain ⟨_, _, hver, -⟩ := hchecked
          exact casTreeVerify_ok_valid hver
        · exact casFsckObject_ok_valid hchecked
      exact ⟨obj, casOpenObject_of_packCopy cs ct.store e.1 hv obj hcopy, had⟩
    · have hone : ct.store.packed e.1 = false ∨ ct.store.hasLoose e.1 = false := by
        simpa [Classical.or_iff_not_imp_left] using hboth
      obtain ⟨hash, b⟩ := e
      cases b with
      | true =>
        obtain ⟨_, -, hver, -⟩ : Sound cs noFaults ct.store hash := hchecked
        exact casTreeVerify_one_copy hx hone hver
      | false =>
        obtain ⟨obj, hopen, hplain⟩ := casFsckObject_one_copy hx hone hchecked
        refine ⟨obj, hopen, hplain.admitted fun ht => ?_⟩
        obtain ⟨type, data⟩ := obj
        obtain rfl : type = tTree := ht
        exact hno.trees hash he data hopen

end

/-! ## One ref -/

/-- A depot with one ref, whose root file holds `root`. -/
def oneRef (st : Store) (root : Bytes) : CasTree := ⟨st, some (AList.singleton ([109] ++ dotRoot) root)⟩

/-- The empty directory, loose, under a ref. -/
def emptyDirDepot : CasTree :=
  oneRef (Store.empty.setLoose (toHex emptyDirBin) ⟨rawFile (treeForm false []), 0⟩) (toHex emptyDirBin ++ [10])

theorem looseCopy_emptyDirDepot : looseCopy [] emptyDirDepot.store (toHex emptyDirBin) = .ok (treeForm false []) :=
  looseCopy_rawFile _ (storable_emptyDir false) [] _ _ 0 (setLoose_lookup_self Store.empty _ _)

theorem casTreeFsck_emptyDirDepot (fn : List FsckReport → Bool) :
    casTreeFsck [] noFaults fn 1 emptyDirDepot = some (.ok, []) := by
  have hlow : LowerHash (toHex emptyDirBin) := lowerHash_toHex _ length_emptyDirBin
  have hread : casTreeRefRead noFaults emptyDirDepot.refs [109] = .ok (toHex emptyDirBin) :=
    casTreeRefRead_written _ _ (by decide) hlow.valid rfl
  have hopen : casOpenObject [] noFaults emptyDirDepot.store (toHex emptyDirBin) = .ok (treeForm false []) := by
    rw [casOpenObject_of_looseCopy [] _ _ hlow.valid rfl, looseCopy_emptyDirDepot]
  have hver : casTreeVerify [] noFaults emptyDirDepot.store (toHex emptyDirBin) = .ok := by
    refine (casTreeVerify_iff [] _ _ [] (by simp) List.Pairwise.nil (Nat.lt_trans length_build_nil (by decide))
      address_emptyDir hlow (.inl rfl) (.inr ⟨false, looseCopy_emptyDirDepot⟩) false hopen).mpr ?_
    rintro ⟨h, -⟩
    cases h
  have hload : casTreeLoad [] noFaults emptyDirDepot.store (toHex emptyDirBin) = .ok [] :=
    (casTreeLoad_of_open [] _ _ [] (by simp) List.Pairwise.nil (Nat.lt_trans length_build_nil (by decide)) false
      hopen).1
  have hnames : casTreeRefForeach noFaults emptyDirDepot.refs = [[109]] := rfl
  unfold casTreeFsck
  rw [hnames]
  simp only [List.foldlM_cons, List.foldlM_nil, fsckRef, hread, fsckTree, hver, hload, fsckEntries]
  rfl

/-- The check of the empty directory is clean, and nothing has been overlooked. -/
theorem fsck_clean_emptyDir : casTreeFsck [] noFaults (fun _ => false) 1 emptyDirDepot = some (.ok, []) ∧
    (ReadableAuthentic [] emptyDirDepot ↔ NothingOverlooked [] emptyDirDepot) :=
  ⟨casTreeFsck_emptyDirDepot _, fsck_clean_iff exact_nil (fun _ => false) 1 (casTreeFsck_emptyDirDepot _)⟩

/-- **A root file that is empty is passed over**: the check is clean and the ref cannot be read. -/
theorem fsck_empty_root : casTreeFsck [] noFaults (fun _ => false) 1 (oneRef Store.empty []) = some (.ok, []) ∧
    ¬ ReadableAuthentic [] (oneRef Store.empty []) := by
  refine ⟨by decide +kernel, fun h => ?_⟩
  obtain ⟨hash, hread⟩ := h.roots [109] (by decide +kernel)
  have hfails : casTreeRefRead noFaults (oneRef Store.empty []).refs [109] = .error .eio := by decide +kernel
  rw [hfails] at hread
  cases hread

end Smolvfs
