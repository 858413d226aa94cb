import Smolvfs.Gc
import Smolvfs.SnapFsck
import Smolvfs.VfsAddress
import Smolvfs.VfsNormalize

/-!
# Checking one file against a snapshot

`tree_resolve` and `vfs_snap_checkfile` of `vfs-snap.c`.  The filesystem looks the path up
in normal form; the snapshot is followed by the pieces of the path as it is written, where
an empty piece, a dot or two dots are names like any other.

* `treeVerdict_iff`: what the check finds in the snapshot, as a relation on its directories.
* `checkfile_spelling_iff`: exactly when the check does not depend on how a path is written.
-/

namespace Smolvfs

open Octets Names PathTree

/-! ## The code -/

/-- The codes of `vfs.h` and of `cas.h`, of which a check returns one. -/
inductive CheckStatus
  | vfs (rc : VfsStatus)
  | cas (rc : Status)
  deriving DecidableEq, Repr

section
variable (cs : Codecs) (flt : Faults) (st : Store)

/-- The loop of `tree_resolve`, on the pieces that are left. -/
def resolvePieces : Bytes → List Bytes → Except Status Entry
  | _, [] => .error .enotfound
  | curhash, cur :: rest =>
    match casTreeLoad cs flt st curhash with
    | .error rc => .error rc
    | .ok dir =>
      match dir.find? fun e => decide (e.name.bytes = cur) with
      | none => .error .enotfound
      | some e =>
        if rest = [] then .ok e
        else if e.isDir = false then .error .etype
        else resolvePieces e.hash rest

/-- The pieces between the slashes of a path, without the one it begins with; the root has none. -/
def writtenPieces (path : Bytes) : List Bytes :=
  let cur := if path.head? = some 47 then path.drop 1 else path
  if cur = [] then [] else cur.splitOn 47

/-- `tree_resolve` -/
def treeResolve (root path : Bytes) : Except Status Entry :=
  resolvePieces cs flt st root (writtenPieces (path.take (SNAP_PATH_MAX - 1)))

/-- `vfs_snap_checkfile` -/
def vfsSnapCheckfile (fs : Vfs) (cred : VfsCred) (root path : Bytes) : CheckStatus :=
  match vfsStat fs cred path with
  | .error rc => .vfs rc
  | .ok stat =>
    if stat.type = .dir then .vfs .eisdir
    else
      match treeResolve cs flt st root path with
      | .error rc => .cas rc
      | .ok entry =>
        if entry.isDir then .cas .etype
        else
          match vfsRead fs cred path with
          | .error _ => .cas .err
          | .ok data => if blobAddr data ≠ entry.hash then .cas .err else .cas .ok

end

/-! ## The snapshot's side -/

section
variable (cs : Codecs) (flt : Faults) (st : Store) (addr : Bytes)

/-- The names lead to a file of the snapshot with contents of this address. -/
def HasFile (root : Bytes) (names : List Bytes) : Prop :=
  ∃ e, entryAt cs flt st root names = some e ∧ e.isDir = false ∧ e.hash = addr

/-- Following the names does not come to such a file, and this is why. -/
inductive Stops : Bytes → List Bytes → Status → Prop
  /-- There are no names. -/
  | none {hash : Bytes} : Stops hash [] .enotfound
  /-- A directory does not load. -/
  | unloaded {hash name : Bytes} {names : List Bytes} {rc : Status} (h : casTreeLoad cs flt st hash = .error rc) :
    Stops hash (name :: names) rc
  /-- It does not have the name. -/
  | absent {hash name : Bytes} {names : List Bytes} {dir : Dir} (h : casTreeLoad cs flt st hash = .ok dir)
    (hno : ∀ e ∈ dir, e.name.bytes ≠ name) : Stops hash (name :: names) .enotfound
  /-- More names follow on what is no directory. -/
  | notDir {hash name : Bytes} {names : List Bytes} {e : Entry} (h : entryIn cs flt st hash name = some e)
    (hfile : e.isDir = false) (hmore : names ≠ []) : Stops hash (name :: names) .etype
  /-- It stops further down. -/
  | into {hash name : Bytes} {names : List Bytes} {e : Entry} {rc : Status}
    (h : entryIn cs flt st hash name = some e) (hdir : e.isDir = true) (hmore : names ≠ [])
    (hrest : Stops e.hash names rc) : Stops hash (name :: names) rc
  /-- The last name is a directory's. -/
  | dir {hash name : Bytes} {e : Entry} (h : entryIn cs flt st hash name = some e) (hdir : e.isDir = true) :
    Stops hash [name] .etype
  /-- It is a file's with other contents. -/
  | changed {hash name : Bytes} {e : Entry} (h : entryIn cs flt st hash name = some e) (hfile : e.isDir = false)
    (hne : e.hash ≠ addr) : Stops hash [name] .err

/-- What the check makes of what it finds in the snapshot. -/
def treeVerdict (root : Bytes) (names : List Bytes) : Status :=
  match resolvePieces cs flt st root names with
  | .error rc => rc
  | .ok e => if e.isDir then .etype else if addr ≠ e.hash then .err else .ok

theorem resolvePieces_cons (hash name : Bytes) (names : List Bytes) :
    resolvePieces cs flt st hash (name :: names) =
      match casTreeLoad cs flt st hash with
      | .error rc => .error rc
      | .ok dir =>
        match dir.find? fun e => decide (e.name.bytes = name) with
        | none => .error .enotfound
        | some e =>
          if names = [] then .ok e
          else if e.isDir = false then .error .etype
          else resolvePieces cs flt st e.hash names := rfl

/-- What a piece that has an entry leads to. -/
theorem resolvePieces_entry (hash name : Bytes) (names : List Bytes) (e : Entry)
    (h : entryIn cs flt st hash name = some e) :
    resolvePieces cs flt st hash (name :: names) =
      if names = [] then .ok e
      else if e.isDir = false then .error .etype
      else resolvePieces cs flt st e.hash names := by
  rw [resolvePieces_cons]
  unfold entryIn at h
  cases hl : casTreeLoad cs flt st hash with
  | error rc =>
    rw [hl] at h
    cases h
  | ok dir =>
    rw [hl] at h
    dsimp only at h ⊢
    rw [h]

/-- A file that is there is found. -/
theorem HasFile.verdict {root : Bytes} {names : List Bytes} (h : HasFile cs flt st addr root names) :
    treeVerdict cs flt st addr root names = .ok := by
  obtain ⟨e, he, hfile, rfl⟩ := h
  unfold treeVerdict
  induction names generalizing root with
  | nil => cases he
  | cons name names ih =>
    by_cases hn : names = []
    · subst hn
      rw [resolvePieces_entry cs flt st root name [] e he, if_pos rfl]
      simp [hfile]
    · rw [entryAt_cons root name names hn] at he
      obtain ⟨d, hd, he⟩ := Option.bind_eq_some_iff.mp he
      split at he
      · next hdir =>
        rw [resolvePieces_entry cs flt st root name names d hd, if_neg hn, if_neg (by simp [hdir])]
        exact ih he
      · cases he

/-- Where it stops, the code is the verdict. -/
theorem Stops.verdict {root : Bytes} {names : List Bytes} {rc : Status} (h : Stops cs flt st addr root names rc) :
    treeVerdict cs flt st addr root names = rc ∧ rc ≠ .ok := by
  unfold treeVerdict
  induction h with
  | none => exact ⟨rfl, by simp⟩
  | unloaded h =>
    rw [resolvePieces_cons, h]
    refine ⟨rfl, ?_⟩
    rintro rfl
    exact casTreeLoad_ne_ok cs flt st _ h
  | absent h hno =>
    rw [resolvePieces_cons, h]
    dsimp only
    rw [List.find?_eq_none.mpr fun e he => by simpa using hno e he]
    exact ⟨rfl, by simp⟩
  | notDir h hfile hmore =>
    rw [resolvePieces_entry cs flt st _ _ _ _ h, if_neg hmore, if_pos hfile]
    exact ⟨rfl, by simp⟩
  | into h hdir hmore _ ih =>
    rw [resolvePieces_entry cs flt st _ _ _ _ h, if_neg hmore, if_neg (by simp [hdir])]
    exact ih
  | dir h hdir =>
    rw [resolvePieces_entry cs flt st _ _ _ _ h, if_pos rfl]
    exact ⟨if_pos hdir, by simp⟩
  | changed h hfile hne =>
    rw [resolvePieces_entry cs flt st _ _ _ _ h, if_pos rfl]
    refine ⟨?_, by simp⟩
    dsimp only
    rw [if_neg (by simp [hfile]), if_pos (Ne.symm hne)]

/-- It finds the file or stops: the induction goes down the names, through the directories they lead to. -/
theorem hasFile_or_stops (root : Bytes) (names : List Bytes) :
    HasFile cs flt st addr root names ∨ ∃ rc, Stops cs flt st addr root names rc := by
  induction names generalizing root with
  | nil => exact Or.inr ⟨_, Stops.none⟩
  | cons name names ih =>
    cases hl : casTreeLoad cs flt st root with
    | error rc => exact Or.inr ⟨rc, Stops.unloaded hl⟩
    | ok dir =>
      cases he : entryIn cs flt st root name with
      | none => exact Or.inr ⟨_, Stops.absent hl ((entryIn_none hl).mp he)⟩
      | some e =>
        by_cases hn : names = []
        · subst hn
          cases hdir : e.isDir with
          | true => exact Or.inr ⟨_, Stops.dir he hdir⟩
          | false =>
            by_cases haddr : e.hash = addr
            · exact Or.inl ⟨e, he, hdir, haddr⟩
            · exact Or.inr ⟨_, Stops.changed he hdir haddr⟩
        · cases hdir : e.isDir with
          | false => exact Or.inr ⟨_, Stops.notDir he hdir hn⟩
          | true =>
            rcases ih e.hash with ⟨x, hx, hfile, haddr⟩ | ⟨rc, hrc⟩
            · refine Or.inl ⟨x, ?_, hfile, haddr⟩
              rw [entryAt_cons root name names hn, he, Option.bind_some, if_pos hdir, hx]
            · exact Or.inr ⟨rc, Stops.into he hdir hn hrc⟩

/-- **The verdict** is that of the file, or says where it stops. -/
theorem treeVerdict_iff (root : Bytes) (names : List Bytes) (rc : Status) :
    treeVerdict cs flt st addr root names = rc ↔
      rc = .ok ∧ HasFile cs flt st addr root names ∨ Stops cs flt st addr root names rc := by
  constructor
  · rintro rfl
    rcases hasFile_or_stops cs flt st addr root names with h | ⟨rc, h⟩
    · exact Or.inl ⟨h.verdict, h⟩
    · rw [h.verdict.1]
      exact Or.inr h
  · rintro (⟨rfl, h⟩ | h)
    · exact h.verdict
    · exact h.verdict.1

theorem treeVerdict_ok (root : Bytes) (names : List Bytes) :
    treeVerdict cs flt st addr root names = .ok ↔ HasFile cs flt st addr root names := by
  rw [treeVerdict_iff]
  constructor
  · rintro (⟨-, h⟩ | h)
    · exact h
    · exact absurd rfl h.verdict.2
  · exact fun h => Or.inl ⟨rfl, h⟩

end

/-! ## The filesystem's side -/

/-- The path names a file of the filesystem. -/
def FileAt (fs : Vfs) (path : Bytes) (n : VfsNode) : Prop :=
  ∃ norm, vfsNormalize VFS_PATH_MAX path = .ok norm ∧ norm ≠ [47] ∧ nodeAt fs norm = some n ∧ n.type ≠ .dir

theorem checkPerm_admin (n : VfsNode) (perm : BitVec 32) : checkPerm n adminCred perm = true := rfl

/-- How a path is written does not matter to the filesystem. -/
theorem vfsStat_congr (fs : Vfs) (cred : VfsCred) {p q : Bytes}
    (h : vfsNormalize VFS_PATH_MAX p = vfsNormalize VFS_PATH_MAX q) : vfsStat fs cred p = vfsStat fs cred q := by
  unfold vfsStat
  rw [h]

theorem FileAt.congr {fs : Vfs} {p q : Bytes} {n : VfsNode} (hf : FileAt fs p n)
    (h : vfsNormalize VFS_PATH_MAX p = vfsNormalize VFS_PATH_MAX q) : FileAt fs q n := by
  unfold FileAt at hf ⊢
  rw [← h]
  exact hf

theorem FileAt.unique {fs : Vfs} {path : Bytes} {n m : VfsNode} (h : FileAt fs path n) (h' : FileAt fs path m) :
    n = m := by
  obtain ⟨norm, hnorm, -, hn, -⟩ := h
  obtain ⟨norm', hnorm', -, hm, -⟩ := h'
  obtain rfl := Except.ok.inj (hnorm.symm.trans hnorm')
  exact Option.some.inj (hn.symm.trans hm)

section
variable (cs : Codecs) (flt : Faults) (st : Store) (fs : Vfs) (root : Bytes)

/-- A file of the filesystem gets the snapshot's verdict on the path as it is written. -/
theorem checkfile_file (path : Bytes) (n : VfsNode) (h : FileAt fs path n) :
    vfsSnapCheckfile cs flt st fs adminCred root path =
      .cas (treeVerdict cs flt st (blobAddr n.data) root (writtenPieces path)) := by
  obtain ⟨norm, hnorm, hroot, hn, hfile⟩ := h
  have hlen : path.length < VFS_PATH_MAX := by
    rw [vfsNormalize_eq] at hnorm
    split at hnorm
    · next hfits => exact hfits.2.1
    · cases hnorm
  have hstat : vfsStat fs adminCred path = .ok (fillStat n) := by
    unfold vfsStat
    rw [hnorm]
    dsimp only
    rw [if_neg hroot, hn]
    rfl
  have hread : vfsRead fs adminCred path = .ok n.data := by
    unfold vfsRead
    rw [hnorm]
    dsimp only
    rw [hn]
    dsimp only
    rw [if_neg hfile, if_neg (by rw [checkPerm_admin]; simp)]
  have hwhole : path.take (SNAP_PATH_MAX - 1) = path := by
    apply List.take_of_length_le
    have hmax : VFS_PATH_MAX = 4096 := rfl
    have hsnap : SNAP_PATH_MAX = 4096 := rfl
    omega
  have htype : (fillStat n).type ≠ .dir := hfile
  unfold vfsSnapCheckfile treeResolve treeVerdict
  rw [hstat, hwhole]
  dsimp only
  rw [if_neg htype]
  cases resolvePieces cs flt st root (writtenPieces path) with
  | error rc => rfl
  | ok e =>
    dsimp only
    rw [hread]
    cases e.isDir with
    | true => rfl
    | false =>
      rw [if_neg (by simp), if_neg (by simp)]
      dsimp only
      split
      · rfl
      · rfl

/-- Where there is none, the path is not followed through the snapshot. -/
theorem checkfile_noFile {p q : Bytes} (h : vfsNormalize VFS_PATH_MAX p = vfsNormalize VFS_PATH_MAX q)
    (hno : ∀ n, ¬FileAt fs p n) :
    vfsSnapCheckfile cs flt st fs adminCred root p = vfsSnapCheckfile cs flt st fs adminCred root q := by
  have hstat := vfsStat_congr fs adminCred h
  have hdir : ∀ stat, vfsStat fs adminCred p = .ok stat → stat.type = .dir := by
    intro stat hok
    unfold vfsStat at hok
    split at hok
    · cases hok
    · next norm hnorm =>
      split at hok
      · rw [← Except.ok.inj hok]
      · next hroot =>
        split at hok
        · cases hok
        · next n hn =>
          split at hok
          · cases hok
          · rw [← Except.ok.inj hok]
            by_contra hfile
            exact hno n ⟨norm, hnorm, hroot, hn, hfile⟩
  unfold vfsSnapCheckfile
  rw [← hstat]
  cases hs : vfsStat fs adminCred p with
  | error rc => rfl
  | ok stat =>
    dsimp only
    rw [if_pos (hdir stat hs), if_pos (hdir stat hs)]

/-- A path in normal form is written as its components. -/
theorem writtenPieces_normal {path : Bytes} (h : vfsNormalize VFS_PATH_MAX path = .ok path) (hroot : path ≠ [47]) :
    writtenPieces path = pathComponents path := by
  have hself : path = 47 :: [47].intercalate (pathComponents path) := by
    have hok := h
    rw [vfsNormalize_eq] at hok
    split at hok
    · rw [← referenceComponents_eq]
      exact (Except.ok.inj hok).symm
    · cases hok
  have hnames := (pathComponents_ok path).names
  have hne : pathComponents path ≠ [] := by
    intro hnil
    rw [hnil] at hself
    exact hroot hself
  have hcur : [47].intercalate (pathComponents path) ≠ [] := by
    intro hnil
    rw [hnil] at hself
    exact hroot hself
  have hsplit := List.splitOn_intercalate 47 (fun l hl => (hnames l hl).2) hne
  have hhead : path.head? = some 47 := by
    rw [hself]
    rfl
  have hdrop : path.drop 1 = [47].intercalate (pathComponents path) := by
    conv_lhs => rw [hself]
    rfl
  unfold writtenPieces
  dsimp only
  rw [if_pos hhead, hdrop, if_neg hcur]
  exact hsplit

/-- **A path in normal form is checked as it should be.** -/
theorem checkfile_normal {path : Bytes} (h : vfsNormalize VFS_PATH_MAX path = .ok path) (n : VfsNode)
    (hfile : FileAt fs path n) :
    vfsSnapCheckfile cs flt st fs adminCred root path = .cas .ok ↔
      HasFile cs flt st (blobAddr n.data) root (pathComponents path) := by
  obtain ⟨norm, hnorm, hroot, -⟩ := id hfile
  obtain rfl := Except.ok.inj (h.symm.trans hnorm)
  rw [checkfile_file cs flt st fs root path n hfile, CheckStatus.cas.injEq, treeVerdict_ok,
    writtenPieces_normal h hroot]

/-- No file is found behind two slashes, or before one at the end. -/
theorem checkfile_slashes {path : Bytes} (hpiece : [] ∈ writtenPieces path) (n : VfsNode) (hfile : FileAt fs path n) :
    vfsSnapCheckfile cs flt st fs adminCred root path ≠ .cas .ok := by
  rw [checkfile_file cs flt st fs root path n hfile, ne_eq, CheckStatus.cas.injEq, treeVerdict_ok]
  rintro ⟨e, he, -, -⟩
  exact (entryAt_names he [] hpiece).1 rfl

/-- What is said of two spellings of a path. -/
structure CheckfileMeets (p q : Bytes) : Prop where
  /-- They get the same code. -/
  same : vfsSnapCheckfile cs flt st fs adminCred root p = vfsSnapCheckfile cs flt st fs adminCred root q
  /-- A file of the filesystem is in order when the snapshot has it at the components of the normalized path. -/
  exact : ∀ path ∈ [p, q], ∀ n, FileAt fs path n →
    (vfsSnapCheckfile cs flt st fs adminCred root path = .cas .ok ↔
      HasFile cs flt st (blobAddr n.data) root (pathComponents path))

theorem pathComponents_congr {p q : Bytes} {norm : Bytes} (hp : vfsNormalize VFS_PATH_MAX p = .ok norm)
    (hq : vfsNormalize VFS_PATH_MAX q = .ok norm) : pathComponents p = pathComponents q := by
  have hof : ∀ path, vfsNormalize VFS_PATH_MAX path = .ok norm → norm = pathOf (pathComponents path) := by
    intro path h
    rw [vfsNormalize_eq] at h
    split at h
    · rw [← Except.ok.inj h, referencePath_eq]
    · cases h
  exact pathOf_inj _ _ (pathComponents_ok p).names (pathComponents_ok q).names ((hof p hp).symm.trans (hof q hq))

/-- **Exactly when a check does not depend on the spelling.** -/
theorem checkfile_spelling_iff (p q : Bytes) (h : vfsNormalize VFS_PATH_MAX p = vfsNormalize VFS_PATH_MAX q) :
    CheckfileMeets cs flt st fs root p q ↔
      ∀ n, FileAt fs p n →
        HasFile cs flt st (blobAddr n.data) root (writtenPieces p) ∧
            HasFile cs flt st (blobAddr n.data) root (writtenPieces q) ∧
            HasFile cs flt st (blobAddr n.data) root (pathComponents p) ∨
          ¬HasFile cs flt st (blobAddr n.data) root (pathComponents p) ∧
            ∃ rc, Stops cs flt st (blobAddr n.data) root (writtenPieces p) rc ∧
              Stops cs flt st (blobAddr n.data) root (writtenPieces q) rc := by
  constructor
  · intro hmeets n hfile
    have hfile' := hfile.congr h
    obtain ⟨norm, hnorm, -⟩ := id hfile
    have hcomps := pathComponents_congr hnorm (h ▸ hnorm)
    have hp := hmeets.exact p (by simp) n hfile
    have hq := hmeets.exact q (by simp) n hfile'
    have hsame := hmeets.same
    rw [checkfile_file cs flt st fs root p n hfile, CheckStatus.cas.injEq, treeVerdict_ok] at hp
    rw [checkfile_file cs flt st fs root q n hfile', CheckStatus.cas.injEq, treeVerdict_ok, ← hcomps] at hq
    rw [checkfile_file cs flt st fs root p n hfile, checkfile_file cs flt st fs root q n hfile',
      CheckStatus.cas.injEq] at hsame
    by_cases hhas : HasFile cs flt st (blobAddr n.data) root (pathComponents p)
    · exact Or.inl ⟨hp.mpr hhas, hq.mpr hhas, hhas⟩
    · refine Or.inr ⟨hhas, ?_⟩
      rcases hasFile_or_stops cs flt st (blobAddr n.data) root (writtenPieces p) with hon | ⟨rc, hrc⟩
      · exact absurd (hp.mp hon) hhas
      · rw [hrc.verdict.1] at hsame
        rcases (treeVerdict_iff ..).mp hsame.symm with ⟨rfl, -⟩ | hrc'
        · exact absurd rfl hrc.verdict.2
        · exact ⟨rc, hrc, hrc'⟩
  · intro hcond
    by_cases hno : ∀ n, ¬FileAt fs p n
    · refine ⟨checkfile_noFile cs flt st fs root h hno, ?_⟩
      intro path hpath n hfile
      rcases List.mem_pair.mp hpath with rfl | rfl
      · exact absurd hfile (hno n)
      · exact absurd (hfile.congr h.symm) (hno n)
    · push Not at hno
      obtain ⟨n, hfile⟩ := hno
      have hfile' := hfile.congr h
      obtain ⟨norm, hnorm, -⟩ := id hfile
      have hcomps := pathComponents_congr hnorm (h ▸ hnorm)
      have hp := checkfile_file cs flt st fs root p n hfile
      have hq := checkfile_file cs flt st fs root q n hfile'
      constructor
      case same =>
        rw [hp, hq]
        rcases hcond n hfile with ⟨hon, hon', -⟩ | ⟨-, rc, hrc, hrc'⟩
        · rw [hon.verdict, hon'.verdict]
        · rw [hrc.verdict.1, hrc'.verdict.1]
      case exact =>
        intro path hpath m hm
        rcases List.mem_pair.mp hpath with rfl | rfl
        · obtain rfl := hm.unique hfile
          rw [hp, CheckStatus.cas.injEq, treeVerdict_ok]
          rcases hcond m hfile with ⟨hon, -, hhas⟩ | ⟨hhas, rc, hrc, -⟩
          · exact ⟨fun _ => hhas, fun _ => hon⟩
          · refine ⟨fun hon => ?_, fun hc => absurd hc hhas⟩
            exact absurd (hrc.verdict.1.symm.trans hon.verdict) hrc.verdict.2
        · obtain rfl := hm.unique hfile'
          rw [hq, CheckStatus.cas.injEq, treeVerdict_ok, ← hcomps]
          rcases hcond m hfile with ⟨-, hon, hhas⟩ | ⟨hhas, rc, -, hrc⟩
          · exact ⟨fun _ => hhas, fun _ => hon⟩
          · refine ⟨fun hon => ?_, fun hc => absurd hc hhas⟩
            exact absurd (hrc.verdict.1.symm.trans hon.verdict) hrc.verdict.2

end

/-! ## Two slashes -/

/-- A filesystem in which `/a` was written. -/
def slashAVfs : Vfs := ((VfsCall.write (lit ['/', 'a']).bytes [7] false).run noVfsFaults adminCred 0 (vfsNew 0 0#32)).2

/-- A depot whose one directory has a file of that name. -/
def slashAStore : Store :=
  ⟨AList.singleton zeroHash ⟨rawFile (tTree, treeSerialize [fileA]), 0⟩, fun _ => none, none⟩

/-- A snapshot without the file is found to be so, with one slash and with two. -/
theorem checkfile_spelling_absent :
    CheckfileMeets [] noFaults emptyTreeStore slashAVfs zeroHash (lit ['/', 'a']).bytes
      (lit ['/', '/', 'a']).bytes := by
  have hload : casTreeLoad [] noFaults emptyTreeStore zeroHash = .ok [] := by decide +kernel
  have hno : ∀ name, entryIn [] noFaults emptyTreeStore zeroHash name = none := by
    intro name
    rw [entryIn_none hload]
    simp
  refine (checkfile_spelling_iff [] noFaults emptyTreeStore slashAVfs zeroHash _ _ (by decide +kernel)).mpr ?_
  intro n _
  refine Or.inr ⟨?_, .enotfound, Stops.absent hload (by simp), Stops.absent hload (by simp)⟩
  rintro ⟨e, he, -⟩
  have hcomps : pathComponents (lit ['/', 'a']).bytes = [[97]] := by decide
  rw [hcomps, entryAt_single, hno] at he
  cases he

/-- **A second slash hides the file**: where the snapshot has it, the two spellings get different codes. -/
theorem checkfile_two_slashes :
    ¬CheckfileMeets [] noFaults slashAStore slashAVfs zeroHash (lit ['/', 'a']).bytes (lit ['/', '/', 'a']).bytes := by
  intro hmeets
  have hload : casTreeLoad [] noFaults slashAStore zeroHash = .ok [fileA] := by decide +kernel
  obtain ⟨n, hn⟩ : ∃ n, FileAt slashAVfs (lit ['/', 'a']).bytes n :=
    ⟨⟨(lit ['/', 'a']).bytes, .file, 0o666#32, 0#32, 0, 0, [7]⟩, (lit ['/', 'a']).bytes, by decide +kernel, by decide,
      by decide +kernel, by decide⟩
  have hn' := hn.congr (q := (lit ['/', '/', 'a']).bytes) (by decide +kernel)
  have hp : writtenPieces (lit ['/', 'a']).bytes = [[97]] := by decide
  have hq : writtenPieces (lit ['/', '/', 'a']).bytes = [[], [97]] := by decide
  have hstops : Stops [] noFaults slashAStore (blobAddr n.data) zeroHash [[], [97]] .enotfound :=
    Stops.absent hload (by decide)
  have hsame := hmeets.same
  rw [checkfile_file _ _ _ _ _ _ n hn, checkfile_file _ _ _ _ _ _ n hn', hp, hq, hstops.verdict.1,
    CheckStatus.cas.injEq] at hsame
  rcases (treeVerdict_iff ..).mp hsame with ⟨hc, -⟩ | hstop
  · cases hc
  · cases hstop with
    | unloaded h => rw [hload] at h; cases h
    | absent h hno =>
      rw [hload] at h
      exact hno fileA (by rw [← Except.ok.inj h]; simp) rfl
    | into _ _ hmore _ => exact hmore rfl

end Smolvfs
