import Smolvfs.SnapTree
import Smolvfs.VfsList
import Smolvfs.VfsRestore

/-!
# What a restore makes

`restore_dir` into a filesystem that has nothing below the directory: the tree of the
snapshot is put there, path by path (`restoreDir_grafted`), as long as every path of the
snapshot is one the filesystem keeps as it is; and nothing stops it when the
filesystem takes the names (`restoreDir_goes`).

`restored_iff`: an empty filesystem becomes the snapshot exactly when no name is `.` or
`..` and no path is longer than the buffer.
-/

namespace Smolvfs

open Octets Keyed Names PathTree

/-! ## Contents by path -/

/-- What there is at a node's path. -/
def VfsNode.content (n : VfsNode) : PathKind := if n.type = .dir then .dir else .file n.data

/-- The paths of the filesystem, with types and contents. -/
def vfsContent (fs : Vfs) : Tree Bytes PathKind := image VfsNode.content (treeOf fs.nodes)

/-- Paths with types and contents, as the filesystem's nodes are. -/
def vfsTriples (fs : Vfs) : Set (Bytes × PathKind) := {x | ∃ n ∈ fs.nodes, x = (n.path, n.content)}

/-- Paths with types and contents, as a tree has them. -/
def triples (t : Tree Bytes PathKind) : Set (Bytes × PathKind) := {x | ∃ p k, t p = some k ∧ x = (pathOf p, k)}

section
variable (cs : Codecs) (flt : Faults) (st : Store)

/-- What an entry's child is; none is a file that cannot be opened, or neither a file nor a directory. -/
def Entry.content (e : Entry) : Option PathKind :=
  if e.isReg then (casOpen cs flt st e.hash).toOption.map PathKind.file
  else if e.isDir then some .dir
  else none

/-- The paths of a snapshot, with types and contents. -/
def snapContent (root : Bytes) :
    Tree Bytes PathKind := fun p => (entryAt cs flt st root p).bind (Entry.content cs flt st)

/-- Every object that is reached through directory entries can be read, and every entry is a regular file or a
directory. -/
structure TreeReadable (root : Bytes) : Prop where
  dirs : TreeComplete cs flt st root
  entries : ∀ p e, entryAt cs flt st root p = some e →
    e.isDir = true ∨ (e.isReg = true ∧ ∃ data, casOpen cs flt st e.hash = .ok data)

/-- No name is `.` or `..` and every path fits the buffer. -/
def PathsRestorable (root : Bytes) : Prop :=
  ∀ p e, entryAt cs flt st root p = some e → Components p ∧ (pathOf p).length < VFS_PATH_MAX

end

theorem node_content_dir (n : VfsNode) : n.content = .dir ↔ n.type = .dir := by
  unfold VfsNode.content
  split
  · next h => simp [h]
  · next h => simp [h]

theorem isReg_not_isDir {e : Entry} (h : e.isReg = true) : e.isDir = false := by
  unfold Entry.isReg at h
  rw [beq_iff_eq] at h
  unfold Entry.isDir
  rw [h]
  decide

theorem vfsContent_some {fs : Vfs} {p : List Bytes} {k : PathKind} (h : vfsContent fs p = some k) :
    ∃ n, treeOf fs.nodes p = some n ∧ n.content = k := Option.map_eq_some_iff.mp h

theorem vfsContent_none {fs : Vfs} {p : List Bytes} : vfsContent fs p = none ↔ treeOf fs.nodes p = none :=
  Option.map_eq_none_iff

/-- A directory of the filesystem, by what is at its path. -/
theorem dirAt_content (fs : Vfs) (d : List Bytes) :
    DirAt isDirNode (treeOf fs.nodes) d ↔ d = [] ∨ vfsContent fs d = some .dir := by
  constructor
  · rintro (hnil | ⟨n, hn, hdir⟩)
    · exact Or.inl hnil
    · right
      unfold vfsContent image
      rw [hn, Option.map_some, (node_content_dir n).mpr hdir]
  · rintro (hnil | hk)
    · exact Or.inl hnil
    · obtain ⟨n, hn, hdir⟩ := vfsContent_some hk
      exact Or.inr ⟨n, hn, (node_content_dir n).mp hdir⟩

theorem vfsContent_closed {fs : Vfs} (h : Shaped fs.nodes) : Closed (fun k => k = PathKind.dir) (vfsContent fs) :=
  h.closed.image VfsNode.content fun n hn => (node_content_dir n).mpr hn

/-- The nodes of a filesystem in order are its paths, types and contents. -/
theorem vfsTriples_eq {fs : Vfs} (h : Shaped fs.nodes) : vfsTriples fs = triples (vfsContent fs) := by
  ext x
  constructor
  · rintro ⟨n, hn, rfl⟩
    obtain ⟨-, -, hp⟩ := (h.normal n hn).key
    refine ⟨nodeKey n, n.content, ?_, by rw [← hp]⟩
    unfold vfsContent image
    rw [(h.treeOf_eq_some _ n).mpr ⟨hn, rfl⟩]
    rfl
  · rintro ⟨p, k, hk, rfl⟩
    obtain ⟨n, hn, rfl⟩ := vfsContent_some hk
    obtain ⟨hm, rfl⟩ := (h.treeOf_eq_some p n).mp hn
    obtain ⟨-, -, hp⟩ := (h.normal n hm).key
    exact ⟨n, hm, by rw [← hp]⟩

/-- Distinct keys are distinct paths. -/
theorem Shaped.paths_nodup {fs : Vfs} (h : Shaped fs.nodes) : (paths fs).Nodup := by
  unfold paths
  refine List.Nodup.map_on ?_ h.distinct.of_map
  intro n hn m hm hp
  apply h.distinct.unique hn hm
  unfold nodeKey
  rw [hp]

/-! ## A call for a free path -/

section
variable (vflt : VfsFaults) (cred : VfsCred) (now : Int)

/-- Where the directory is there, no parent is created. -/
theorem ensureParents_there {fs : Vfs} (h : Shaped fs.nodes) (fuel : Nat) (d : List Bytes) (c : Bytes)
    (hc : Components (d ++ [c])) (hlen : (pathOf (d ++ [c])).length < VFS_PATH_MAX)
    (hdir : DirAt isDirNode (treeOf fs.nodes) d) :
    ensureParents vflt cred now fuel fs (pathOf (d ++ [c])) = (.ok, fs) := by
  cases fuel with
  | zero => rfl
  | succ fuel =>
    obtain ⟨hd, hlast⟩ := (components_append d [c]).mp hc
    unfold ensureParents
    rw [pathParent_concat d c (hlast.names c (by simp)) (by omega)]
    dsimp only
    by_cases hroot : pathOf d = [47]
    · rw [if_pos hroot]
    · rw [if_neg hroot]
      rcases hdir with rfl | ⟨n, hn, hdn⟩
      · exact absurd rfl hroot
      · have hdn' : n.type = .dir := hdn
        rw [nodeAt_pathOf fs h.normal d hd, hn]
        dsimp only
        rw [if_neg (by simp [hdn'])]

/-- A path that gets a type and contents, and nothing else. -/
structure Added (fs fs' : Vfs) (p : List Bytes) (k : PathKind) : Prop where
  shaped : Shaped fs'.nodes
  content : vfsContent fs' = Function.update (vfsContent fs) p (some k)
  quota : fs'.quota = fs.quota

section
variable {fs : Vfs} (h : Shaped fs.nodes) {d : List Bytes} {c : Bytes} (hc : Components (d ++ [c]))
  (hlen : (pathOf (d ++ [c])).length < VFS_PATH_MAX) (hdir : DirAt isDirNode (treeOf fs.nodes) d)
  (hfree : treeOf fs.nodes (d ++ [c]) = none)

include h hc hdir hfree

theorem added_append (n : VfsNode) (hn : n.path = pathOf (d ++ [c])) {fs' : Vfs} (hnodes : fs'.nodes = fs.nodes ++ [n])
    (hquota : fs'.quota = fs.quota) : Added fs fs' (d ++ [c]) n.content := by
  obtain ⟨hs, ht⟩ := h.append d c n hc hn hfree hdir
  refine ⟨hnodes ▸ hs, ?_, hquota⟩
  unfold vfsContent
  rw [hnodes, ht]
  funext p
  unfold image
  by_cases hp : p = d ++ [c]
  · rw [hp, Function.update_self, Function.update_self]
    rfl
  · rw [Function.update_of_ne hp, Function.update_of_ne hp]

include hlen

/-- Creating a directory where there is nothing. -/
theorem vfsMkdir_free :
    vfsMkdir vflt fs cred (pathOf (d ++ [c])) true now =
      if validatePathComponents (pathOf (d ++ [c])) ≠ .ok then (validatePathComponents (pathOf (d ++ [c])), fs)
      else if vflt (.addNode (pathOf (d ++ [c]))) then (.enomem, fs)
      else (.ok, { fs with nodes := fs.nodes ++
        [newNode (pathOf (d ++ [c])) .dir (VFS_MODE_DIR_DEFAULT &&& ~~~fs.umask) cred.uid [] now] }) := by
  have hroot : pathOf (d ++ [c]) ≠ [47] := fun heq => by simpa using (pathOf_eq_root _ hc.names).mp heq
  unfold vfsMkdir
  rw [vfsNormalize_pathOf _ hc hlen]
  dsimp only
  rw [if_neg hroot]
  split
  · rfl
  · rw [nodeAt_pathOf fs h.normal _ hc, hfree]
    unfold prepareParents
    dsimp only
    rw [if_pos rfl, ensureParents_there vflt cred now h _ d c hc hlen hdir]
    unfold addNode
    dsimp only
    by_cases hf : vflt (.addNode (pathOf (d ++ [c]))) = true
    · rw [if_pos hf, if_pos hf]
    · rw [if_neg hf, if_neg hf]

/-- Writing a file where there is nothing. -/
theorem vfsWrite_free (data : Bytes) :
    vfsWrite vflt fs cred (pathOf (d ++ [c])) data true now =
      if validatePathComponents (pathOf (d ++ [c])) ≠ .ok then (validatePathComponents (pathOf (d ++ [c])), fs)
      else if fs.quota > 0 ∧ add64 (sub64 fs.usage 0) data.length > fs.quota then (.equota, fs)
      else if data.length > 0 ∧ vflt (.copyData (pathOf (d ++ [c]))) = true then (.enomem, fs)
      else if vflt (.addNode (pathOf (d ++ [c]))) then (.enomem, fs)
      else (.ok, { fs with
        nodes := fs.nodes ++
          [newNode (pathOf (d ++ [c])) .file (VFS_MODE_FILE_DEFAULT &&& ~~~fs.umask) cred.uid data now]
        usage := add64 fs.usage data.length }) := by
  have hroot : pathOf (d ++ [c]) ≠ [47] := fun heq => by simpa using (pathOf_eq_root _ hc.names).mp heq
  have hnode : nodeAt fs (pathOf (d ++ [c])) = none := by rw [nodeAt_pathOf fs h.normal _ hc, hfree]
  unfold vfsWrite
  rw [vfsNormalize_pathOf _ hc hlen]
  dsimp only
  rw [if_neg hroot]
  split
  · rfl
  · rw [hnode, findNode_none hnode]
    unfold prepareParents
    dsimp only
    rw [if_neg (by simp), if_neg (by simp), if_pos rfl, ensureParents_there vflt cred now h _ d c hc hlen hdir]
    simp only [Option.map_none, Option.getD_none]
    split
    · rfl
    · split
      · rfl
      · unfold addNode
        by_cases hf : vflt (.addNode (pathOf (d ++ [c]))) = true
        · rw [if_pos hf, if_pos hf]
        · rw [if_neg hf, if_neg hf]

theorem vfsMkdir_added (hok : (vfsMkdir vflt fs cred (pathOf (d ++ [c])) true now).1 = .ok) :
    Added fs (vfsMkdir vflt fs cred (pathOf (d ++ [c])) true now).2 (d ++ [c]) .dir := by
  rw [vfsMkdir_free vflt cred now h hc hlen hdir hfree] at hok ⊢
  split at hok
  · next hv => exact absurd hok hv
  · next hv =>
    rw [if_neg hv]
    split at hok
    · cases hok
    · next hf =>
      rw [if_neg hf]
      apply added_append h hc hdir hfree
        (newNode (pathOf (d ++ [c])) .dir (VFS_MODE_DIR_DEFAULT &&& ~~~fs.umask) cred.uid [] now)
      · rfl
      · rfl
      · rfl

theorem vfsWrite_added {data : Bytes} (hok : (vfsWrite vflt fs cred (pathOf (d ++ [c])) data true now).1 = .ok) :
    Added fs (vfsWrite vflt fs cred (pathOf (d ++ [c])) data true now).2 (d ++ [c]) (.file data) := by
  rw [vfsWrite_free vflt cred now h hc hlen hdir hfree] at hok ⊢
  split at hok
  · next hv => exact absurd hok hv
  · next hv =>
    rw [if_neg hv]
    split at hok
    · cases hok
    · next hq =>
      rw [if_neg hq]
      split at hok
      · cases hok
      · next hm =>
        rw [if_neg hm]
        split at hok
        · cases hok
        · next hf =>
          rw [if_neg hf]
          apply added_append h hc hdir hfree
            (newNode (pathOf (d ++ [c])) .file (VFS_MODE_FILE_DEFAULT &&& ~~~fs.umask) cred.uid data now)
          · rfl
          · rfl
          · rfl

end

end

/-! ## What is put where -/

/-- The paths that `Q` holds of are as the tree has them, the others as they were. -/
structure Grafted (t : Tree Bytes PathKind) (fs fs' : Vfs) (Q : List Bytes → Prop) : Prop where
  shaped : Shaped fs'.nodes
  inside : ∀ p, Q p → vfsContent fs' p = t p
  outside : ∀ p, ¬ Q p → vfsContent fs' p = vfsContent fs p
  quota : fs'.quota = fs.quota

section
variable {t : Tree Bytes PathKind} {fs fs1 fs2 : Vfs}

theorem Grafted.refl (h : Shaped fs.nodes) : Grafted t fs fs fun _ => False :=
  ⟨h, fun _ hp => hp.elim, fun _ _ => rfl, rfl⟩

theorem Grafted.trans {Q R : List Bytes → Prop} (h : Grafted t fs fs1 Q) (h' : Grafted t fs1 fs2 R) :
    Grafted t fs fs2 fun p => Q p ∨ R p := by
  refine ⟨h'.shaped, fun p hp => ?_, fun p hp => ?_, h'.quota.trans h.quota⟩
  · by_cases hr : R p
    · exact h'.inside p hr
    · rw [h'.outside p hr]
      exact h.inside p (hp.resolve_right hr)
  · rw [not_or] at hp
    rw [h'.outside p hp.2, h.outside p hp.1]

/-- A path where both have nothing may be counted in or out. -/
theorem Grafted.congr {Q R : List Bytes → Prop} (h : Grafted t fs fs1 Q)
    (hQR : ∀ p, (Q p ↔ R p) ∨ (vfsContent fs p = none ∧ t p = none)) : Grafted t fs fs1 R := by
  refine ⟨h.shaped, fun p hp => ?_, fun p hp => ?_, h.quota⟩
  · rcases hQR p with hiff | ⟨hnone, htnone⟩
    · exact h.inside p (hiff.mpr hp)
    · by_cases hq : Q p
      · exact h.inside p hq
      · rw [h.outside p hq, hnone, htnone]
  · rcases hQR p with hiff | ⟨hnone, htnone⟩
    · exact h.outside p fun hq => hp (hiff.mp hq)
    · by_cases hq : Q p
      · rw [h.inside p hq, hnone, htnone]
      · exact h.outside p hq

/-- A directory stays where nothing is put at it. -/
theorem Grafted.dirAt {Q : List Bytes → Prop} (h : Grafted t fs fs1 Q) {d : List Bytes} (hd : ¬ Q d)
    (hdir : DirAt isDirNode (treeOf fs.nodes) d) : DirAt isDirNode (treeOf fs1.nodes) d := by
  rw [dirAt_content] at hdir ⊢
  rw [h.outside d hd]
  exact hdir

theorem Grafted.free {Q : List Bytes → Prop} (h : Grafted t fs fs1 Q) {p : List Bytes} (hp : ¬ Q p)
    (hfree : treeOf fs.nodes p = none) : treeOf fs1.nodes p = none := by
  rw [← vfsContent_none] at hfree ⊢
  rw [h.outside p hp, hfree]

/-- What is added at a free path is put there and below it, when the tree has the same and nothing below. -/
theorem Added.grafted {p : List Bytes} {k : PathKind} (h : Added fs fs1 p k) (ht : t p = some k)
    (hbelow : ∀ q, Below p q → vfsContent fs1 q = t q) : Grafted t fs fs1 fun q => p <+: q := by
  refine ⟨h.shaped, fun q hq => ?_, fun q hq => ?_, h.quota⟩
  · by_cases heq : q = p
    · rw [heq, h.content, Function.update_self, ht]
    · exact hbelow q ((below_iff p q).mpr ⟨hq, fun hpq => heq hpq.symm⟩)
  · have hne : q ≠ p := by
      rintro rfl
      exact hq (List.prefix_refl _)
    rw [h.content, Function.update_of_ne hne]

end

/-! ## The snapshot's tree -/

section
variable {cs : Codecs} {flt : Faults} {st : Store} {root : Bytes}

theorem snapContent_entry {p : List Bytes} {e : Entry} (he : entryAt cs flt st root p = some e) :
    snapContent cs flt st root p = e.content cs flt st := by
  unfold snapContent
  rw [he]
  rfl

theorem content_dir {e : Entry} (hdir : e.isDir = true) : e.content cs flt st = some .dir := by
  have hreg : ¬ e.isReg = true := fun hreg => by simp [isReg_not_isDir hreg] at hdir
  unfold Entry.content
  rw [if_neg hreg, if_pos hdir]

theorem content_file {e : Entry} (hreg : e.isReg = true) {data : Bytes} (hopen : casOpen cs flt st e.hash = .ok data) :
    e.content cs flt st = some (.file data) := by
  unfold Entry.content
  rw [if_pos hreg, hopen]
  rfl

theorem snapContent_closed : Closed (fun k => k = PathKind.dir) (snapContent cs flt st root) where
  root := rfl
  parent p n k hk := by
    obtain ⟨e, he, -⟩ := Option.bind_eq_some_iff.mp hk
    rcases (entryAt_closed root).parent p n e he with hnil | ⟨d, hd, hdir⟩
    · exact Or.inl hnil
    · exact Or.inr ⟨.dir, (snapContent_entry hd).trans (content_dir hdir), rfl⟩

/-- In a readable snapshot every entry shows. -/
theorem TreeReadable.content_some (h : TreeReadable cs flt st root) {p : List Bytes} {e : Entry}
    (he : entryAt cs flt st root p = some e) : ∃ k, snapContent cs flt st root p = some k := by
  rw [snapContent_entry he]
  rcases h.entries p e he with hdir | ⟨hreg, data, hopen⟩
  · exact ⟨_, content_dir hdir⟩
  · exact ⟨_, content_file hreg hopen⟩

/-- Below a directory of the snapshot there are its entries, and what is below them. -/
theorem below_entry {d : List Bytes} {hash : Bytes} (hd : dirHash cs flt st root d = some hash) {dir : Dir}
    (hload : casTreeLoad cs flt st hash = .ok dir) (p : List Bytes) (hp : Below d p) :
    (∃ e ∈ dir, d ++ [e.name.bytes] <+: p) ∨ snapContent cs flt st root p = none := by
  obtain ⟨n, names, rfl⟩ := hp
  by_cases hmem : ∃ e ∈ dir, e.name.bytes = n
  · obtain ⟨e, he, rfl⟩ := hmem
    exact Or.inl ⟨e, he, names, by simp⟩
  · right
    have hnone : entryAt cs flt st root (d ++ [n]) = none :=
      (entryAt_none_of_not_mem hd hload n).mpr fun e he heq => hmem ⟨e, he, heq⟩
    have hbelow : entryAt cs flt st root (d ++ n :: names) = none := by
      apply (entryAt_closed root).none_from (by simp) hnone
      exact ⟨names, by simp⟩
    unfold snapContent
    rw [hbelow]
    rfl

end

/-! ## The restore of a directory -/

/-- What is at one name is not at another's. -/
theorem not_prefix_sibling (d : List Bytes) {e x : Entry} {es : Dir} (hnotin : e.name ∉ es.map Entry.name)
    (hx : x ∈ es) :
    ¬ d ++ [e.name.bytes] <+: d ++ [x.name.bytes] := by
  intro hpre
  have heq : d ++ [e.name.bytes] = d ++ [x.name.bytes] := hpre.eq_of_length (by simp)
  have hname : e.name = x.name := CStr.ext (by simpa using heq)
  exact hnotin (List.mem_map.mpr ⟨x, hx, hname.symm⟩)

section
variable {cs : Codecs} {flt : Faults} {st : Store} {root : Bytes} (hread : TreeReadable cs flt st root)
  (hpaths : PathsRestorable cs flt st root) (vflt : VfsFaults) (cred : VfsCred) (now : Int)

include hread hpaths

/-- What a directory's child may assume and gives: it puts there what the snapshot has below. -/
def Child (cs : Codecs) (flt : Faults) (st : Store) (root : Bytes) (child : Bytes → Bytes → Vfs → Restored)
    (d : List Bytes)
    (hash : Bytes) : Prop :=
  ∀ fs fs', Shaped fs.nodes → DirAt isDirNode (treeOf fs.nodes) d → (∀ p, Below d p → treeOf fs.nodes p = none) →
    child (pathOf d) hash fs = (some .ok, fs') → Grafted (snapContent cs flt st root) fs fs' (Below d)

section
variable {d : List Bytes} {hash : Bytes} (hd : dirHash cs flt st root d = some hash) {dir : Dir}
  (hload : casTreeLoad cs flt st hash = .ok dir) (child : Bytes → Bytes → Vfs → Restored)
  (hchild : ∀ e ∈ dir, e.isDir = true → Child cs flt st root child (d ++ [e.name.bytes]) e.hash)

include hd hload hchild

/-- **An entry that is restored** is at its path, with what is below it. -/
theorem restoreEntry_grafted {e : Entry} (he : e ∈ dir) {fs fs' : Vfs} (h : Shaped fs.nodes)
    (hdir : DirAt isDirNode (treeOf fs.nodes) d) (hfree : treeOf fs.nodes (d ++ [e.name.bytes]) = none)
    (hrun : restoreEntry cs flt st vflt cred now child (pathOf d) fs e = (some .ok, fs')) :
    Grafted (snapContent cs flt st root) fs fs' fun p => d ++ [e.name.bytes] <+: p := by
  have hentry := entryAt_of_mem hd hload he
  obtain ⟨hc, hlen⟩ := hpaths _ e hentry
  have hpath := childPath_pathOf d (h.dirAt_components hdir).names e.name hlen
  unfold restoreEntry at hrun
  rw [hpath] at hrun
  rcases hread.entries _ e hentry with hisDir | ⟨hreg, data, hopen⟩
  · rw [if_neg (fun hreg => by simp [isReg_not_isDir hreg] at hisDir), if_pos hisDir] at hrun
    dsimp only at hrun
    split at hrun
    · cases (Prod.mk.inj hrun).1
    · next hmk =>
      have hadd := vfsMkdir_added vflt cred now h hc hlen hdir hfree (not_not.mp hmk)
      generalize (vfsMkdir vflt fs cred (pathOf (d ++ [e.name.bytes])) true now).2 = fs1 at hadd hrun
      -- nothing is below a new directory
      have hself : vfsContent fs1 (d ++ [e.name.bytes]) = some .dir := by rw [hadd.content, Function.update_self]
      have hempty : ∀ p, Below (d ++ [e.name.bytes]) p → treeOf fs1.nodes p = none := by
        intro p hp
        rw [← vfsContent_none, hadd.content, Function.update_of_ne (Ne.symm hp.ne), vfsContent_none]
        exact h.closed.none_from (by simp) hfree hp.starts
      have hsub := hchild e he hisDir fs1 fs' hadd.shaped ((dirAt_content fs1 _).mpr (Or.inr hself)) hempty hrun
      have hsnap : snapContent cs flt st root (d ++ [e.name.bytes]) = some .dir :=
        (snapContent_entry hentry).trans (content_dir hisDir)
      refine ⟨hsub.shaped, fun p hp => ?_, fun p hp => ?_, hsub.quota.trans hadd.quota⟩
      · by_cases heq : d ++ [e.name.bytes] = p
        · subst heq
          rw [hsub.outside _ (fun hb => hb.ne rfl), hself, hsnap]
        · exact hsub.inside p ((below_iff _ _).mpr ⟨hp, heq⟩)
      · have hne : p ≠ d ++ [e.name.bytes] := by
          rintro rfl
          exact hp (List.prefix_refl _)
        rw [hsub.outside p (fun hb => hp hb.starts), hadd.content, Function.update_of_ne hne]
  · rw [if_pos hreg, hopen] at hrun
    dsimp only at hrun
    obtain ⟨hrc, rfl⟩ := Prod.mk.inj hrun
    have hok : (vfsWrite vflt fs cred (pathOf (d ++ [e.name.bytes])) data true now).1 = .ok := by
      by_contra hne
      rw [if_neg hne] at hrc
      cases hrc
    have hadd := vfsWrite_added vflt cred now h hc hlen hdir hfree hok
    generalize (vfsWrite vflt fs cred (pathOf (d ++ [e.name.bytes])) data true now).2 = fs1 at hadd
    have hsnap : snapContent cs flt st root (d ++ [e.name.bytes]) = some (.file data) :=
      (snapContent_entry hentry).trans (content_file hreg hopen)
    have hself : vfsContent fs1 (d ++ [e.name.bytes]) = some (.file data) := by
      rw [hadd.content, Function.update_self]
    have hnotDir : ∀ t : Tree Bytes PathKind, t (d ++ [e.name.bytes]) = some (.file data) →
        ¬ DirAt (fun k => k = PathKind.dir) t (d ++ [e.name.bytes]) := by
      rintro t ht (hnil | ⟨k, hk, rfl⟩)
      · simp at hnil
      · rw [ht] at hk
        cases hk
    -- neither side has anything below a file
    apply hadd.grafted hsnap
    intro q hq
    rw [(vfsContent_closed hadd.shaped).none_below (hnotDir _ hself) hq,
      snapContent_closed.none_below (hnotDir _ hsnap) hq]

/-- **The entries one after another**, each at its path. -/
theorem restoreEntries_grafted (es : Dir) (hes : ∀ e ∈ es, e ∈ dir) (hnd : (es.map Entry.name).Nodup) {fs fs' : Vfs}
    (h : Shaped fs.nodes) (hdir : DirAt isDirNode (treeOf fs.nodes) d)
    (hfree : ∀ e ∈ es, treeOf fs.nodes (d ++ [e.name.bytes]) = none)
    (hrun : restoreEntries cs flt st vflt cred now child (pathOf d) es fs = (some .ok, fs')) :
    Grafted (snapContent cs flt st root) fs fs' fun p => ∃ e ∈ es, d ++ [e.name.bytes] <+: p := by
  induction es generalizing fs with
  | nil =>
    obtain rfl := (Prod.mk.inj hrun).2
    exact (Grafted.refl h).congr fun p => Or.inl (by simp)
  | cons e es ih =>
    obtain ⟨hnotin, hnd'⟩ := List.nodup_cons.mp hnd
    unfold restoreEntries at hrun
    split at hrun
    · next fs1 hone =>
      have hfirst := restoreEntry_grafted hread hpaths vflt cred now hd hload child hchild (hes e (by simp)) h hdir
        (hfree e (by simp)) hone
      have hout : ¬ d ++ [e.name.bytes] <+: d := not_prefix_init d _
      have hfree' : ∀ x ∈ es, treeOf fs1.nodes (d ++ [x.name.bytes]) = none := by
        intro x hx
        exact hfirst.free (not_prefix_sibling d hnotin hx) (hfree x (by simp [hx]))
      have hrest := ih (fun x hx => hes x (by simp [hx])) hnd' hfirst.shaped (hfirst.dirAt hout hdir) hfree' hrun
      exact (hfirst.trans hrest).congr fun p => Or.inl (by simp)
    · next hno => exact absurd hrun (hno fs')

end

/-- **A directory that is restored** has below it what the snapshot has, and nothing else has changed. -/
theorem restoreDir_grafted (fuel : Nat) (d : List Bytes) (hash : Bytes) (hd : dirHash cs flt st root d = some hash) :
    Child cs flt st root (restoreDir cs flt st vflt cred now fuel) d hash := by
  induction fuel generalizing d hash with
  | zero =>
    intro fs fs' _ _ _ hrun
    cases (Prod.mk.inj hrun).1
  | succ fuel ih =>
    intro fs fs' h hdir hempty hrun
    obtain ⟨dir, hload⟩ := hread.dirs d hash hd
    unfold restoreDir at hrun
    rw [hload] at hrun
    dsimp only at hrun
    have hgraft := restoreEntries_grafted hread hpaths vflt cred now hd hload _
      (fun e he hisDir => ih _ _ (dirHash_concat hd hload he hisDir)) dir (fun _ he => he)
      (casTreeLoad_names hload).1.nodup h hdir (fun e _ => hempty _ ⟨_, [], rfl⟩) hrun
    apply hgraft.congr
    intro p
    by_cases hp : Below d p
    · rcases below_entry hd hload p hp with hin | hnone
      · exact Or.inl (iff_of_true hin hp)
      · exact Or.inr ⟨vfsContent_none.mpr (hempty p hp), hnone⟩
    · refine Or.inl (iff_of_false ?_ hp)
      rintro ⟨e, -, rest, rfl⟩
      exact hp ⟨e.name.bytes, rest, by simp⟩

end

/-! ## Readable down to a depth -/

section
variable {cs : Codecs} {flt : Faults} {st : Store}

/-- The directory loads, its files can be opened, and so on below it, in less than `fuel` levels. -/
def Within (cs : Codecs) (flt : Faults) (st : Store) : Nat → Bytes → Prop
  | 0, _ => False
  | fuel + 1, hash => ∃ dir, casTreeLoad cs flt st hash = .ok dir ∧ ∀ e ∈ dir,
      (e.isReg = true ∧ ∃ data, casOpen cs flt st e.hash = .ok data) ∨ (e.isDir = true ∧ Within cs flt st fuel e.hash)

theorem Within.loads {fuel : Nat} {hash : Bytes} (h : Within cs flt st fuel hash) :
    ∃ dir, casTreeLoad cs flt st hash = .ok dir := by
  cases fuel with
  | zero => exact h.elim
  | succ fuel =>
    obtain ⟨dir, hload, -⟩ := h
    exact ⟨dir, hload⟩

theorem Within.entry {fuel : Nat} {hash name : Bytes} (h : Within cs flt st fuel hash) {e : Entry}
    (he : entryIn cs flt st hash name = some e) :
    (e.isReg = true ∧ ∃ data, casOpen cs flt st e.hash = .ok data) ∨
      (e.isDir = true ∧ ∃ fuel, Within cs flt st fuel e.hash) := by
  cases fuel with
  | zero => exact h.elim
  | succ fuel =>
    obtain ⟨dir, hload, hall⟩ := h
    obtain ⟨dir', hload', hmem, -⟩ := entryIn_some he
    obtain rfl := Except.ok.inj (hload.symm.trans hload')
    rcases hall e hmem with hfile | ⟨hdir, hsub⟩
    · exact Or.inl hfile
    · exact Or.inr ⟨hdir, fuel, hsub⟩

theorem Within.reached {fuel : Nat} {hash : Bytes} (h : Within cs flt st fuel hash) {p : List Bytes} {e : Entry}
    (he : entryAt cs flt st hash p = some e) :
    (e.isReg = true ∧ ∃ data, casOpen cs flt st e.hash = .ok data) ∨
      (e.isDir = true ∧ ∃ fuel, Within cs flt st fuel e.hash) := by
  induction p generalizing fuel hash with
  | nil => cases he
  | cons name names ih =>
    by_cases hn : names = []
    · subst hn
      exact h.entry he
    · rw [entryAt_cons _ _ _ hn] at he
      obtain ⟨x, hx, he⟩ := Option.bind_eq_some_iff.mp he
      split at he
      · next hdir =>
        rcases h.entry hx with ⟨hreg, -⟩ | ⟨-, fuel', hsub⟩
        · rw [isReg_not_isDir hreg] at hdir
          cases hdir
        · exact ih hsub he
      · cases he

theorem Within.readable {fuel : Nat} {root : Bytes} (h : Within cs flt st fuel root) : TreeReadable cs flt st root := by
  refine ⟨fun d hash hd => ?_, fun p e he => ?_⟩
  · rcases (dirHash_eq_some root d hash).mp hd with ⟨-, rfl⟩ | ⟨e, he, hdir, rfl⟩
    · exact h.loads
    · rcases h.reached he with ⟨hreg, -⟩ | ⟨-, fuel', hsub⟩
      · rw [isReg_not_isDir hreg] at hdir
        cases hdir
      · exact hsub.loads
  · rcases h.reached he with hfile | ⟨hdir, -⟩
    · exact Or.inr hfile
    · exact Or.inl hdir

end

/-! ## Nothing stops it -/

section
variable {cs : Codecs} {flt : Faults} {st : Store} {root : Bytes} (hread : TreeReadable cs flt st root)
  (hpaths : PathsRestorable cs flt st root)
  (hvalid : ∀ p e, entryAt cs flt st root p = some e → validatePathComponents (pathOf p) = .ok)
  (cred : VfsCred) (now : Int)

/-- What a directory's child may assume to succeed. -/
def Goes (child : Bytes → Bytes → Vfs → Restored) (d : List Bytes) (hash : Bytes) : Prop :=
  ∀ fs, Shaped fs.nodes → DirAt isDirNode (treeOf fs.nodes) d → (∀ p, Below d p → treeOf fs.nodes p = none) →
    fs.quota = 0 → (child (pathOf d) hash fs).1 = some .ok

include hread hpaths hvalid

section
variable {d : List Bytes} {hash : Bytes} (hd : dirHash cs flt st root d = some hash) {dir : Dir}
  (hload : casTreeLoad cs flt st hash = .ok dir) (child : Bytes → Bytes → Vfs → Restored)
  (hgoes : ∀ e ∈ dir, e.isDir = true → Goes child (d ++ [e.name.bytes]) e.hash)

include hd hload hgoes

theorem restoreEntry_goes {e : Entry} (he : e ∈ dir) {fs : Vfs} (h : Shaped fs.nodes)
    (hdir : DirAt isDirNode (treeOf fs.nodes) d) (hfree : treeOf fs.nodes (d ++ [e.name.bytes]) = none)
    (hquota : fs.quota = 0) :
    (restoreEntry cs flt st noVfsFaults cred now child (pathOf d) fs e).1 = some .ok := by
  have hentry := entryAt_of_mem hd hload he
  obtain ⟨hc, hlen⟩ := hpaths _ e hentry
  have hpath := childPath_pathOf d (h.dirAt_components hdir).names e.name hlen
  have hv : ¬ validatePathComponents (pathOf (d ++ [e.name.bytes])) ≠ .ok := not_not.mpr (hvalid _ e hentry)
  unfold restoreEntry
  rw [hpath]
  rcases hread.entries _ e hentry with hisDir | ⟨hreg, data, hopen⟩
  · have hmk : (vfsMkdir noVfsFaults fs cred (pathOf (d ++ [e.name.bytes])) true now).1 = .ok := by
      rw [vfsMkdir_free noVfsFaults cred now h hc hlen hdir hfree, if_neg hv, if_neg (by simp [noVfsFaults])]
    have hadd := vfsMkdir_added noVfsFaults cred now h hc hlen hdir hfree hmk
    rw [if_neg (fun hreg => by simp [isReg_not_isDir hreg] at hisDir), if_pos hisDir]
    dsimp only
    rw [if_neg (not_not.mpr hmk)]
    generalize (vfsMkdir noVfsFaults fs cred (pathOf (d ++ [e.name.bytes])) true now).2 = fs1 at hadd
    have hself : vfsContent fs1 (d ++ [e.name.bytes]) = some .dir := by rw [hadd.content, Function.update_self]
    apply hgoes e he hisDir fs1 hadd.shaped ((dirAt_content fs1 _).mpr (Or.inr hself)) ?_ (hadd.quota.trans hquota)
    intro p hp
    rw [← vfsContent_none, hadd.content, Function.update_of_ne (Ne.symm hp.ne), vfsContent_none]
    exact h.closed.none_from (by simp) hfree hp.starts
  · have hwr : (vfsWrite noVfsFaults fs cred (pathOf (d ++ [e.name.bytes])) data true now).1 = .ok := by
      rw [vfsWrite_free noVfsFaults cred now h hc hlen hdir hfree, if_neg hv, if_neg (by simp [hquota]),
        if_neg (by simp [noVfsFaults]), if_neg (by simp [noVfsFaults])]
    rw [if_pos hreg, hopen]
    dsimp only
    rw [if_pos hwr]

variable (hchild : ∀ e ∈ dir, e.isDir = true → Child cs flt st root child (d ++ [e.name.bytes]) e.hash)

include hchild

theorem restoreEntries_goes (es : Dir) (hes : ∀ e ∈ es, e ∈ dir) (hnd : (es.map Entry.name).Nodup) {fs : Vfs}
    (h : Shaped fs.nodes) (hdir : DirAt isDirNode (treeOf fs.nodes) d)
    (hfree : ∀ e ∈ es, treeOf fs.nodes (d ++ [e.name.bytes]) = none) (hquota : fs.quota = 0) :
    (restoreEntries cs flt st noVfsFaults cred now child (pathOf d) es fs).1 = some .ok := by
  induction es generalizing fs with
  | nil => rfl
  | cons e es ih =>
    obtain ⟨hnotin, hnd'⟩ := List.nodup_cons.mp hnd
    have hone := restoreEntry_goes hread hpaths hvalid cred now hd hload child hgoes (hes e (by simp)) h hdir
      (hfree e (by simp)) hquota
    unfold restoreEntries
    generalize hr : restoreEntry cs flt st noVfsFaults cred now child (pathOf d) fs e = r at hone
    obtain ⟨rc, fs1⟩ := r
    obtain rfl : rc = some .ok := hone
    have hfirst := restoreEntry_grafted hread hpaths noVfsFaults cred now hd hload child hchild (hes e (by simp)) h hdir
      (hfree e (by simp)) hr
    dsimp only
    apply ih (fun x hx => hes x (by simp [hx])) hnd' hfirst.shaped (hfirst.dirAt (not_prefix_init d _) hdir) ?_
      (hfirst.quota.trans hquota)
    intro x hx
    exact hfirst.free (not_prefix_sibling d hnotin hx) (hfree x (by simp [hx]))

end

/-- **A restore into an empty directory succeeds** when the filesystem takes the names. -/
theorem restoreDir_goes (fuel : Nat) (d : List Bytes) (hash : Bytes) (hd : dirHash cs flt st root d = some hash)
    (hwithin : Within cs flt st fuel hash) : Goes (restoreDir cs flt st noVfsFaults cred now fuel) d hash := by
  induction fuel generalizing d hash with
  | zero => exact hwithin.elim
  | succ fuel ih =>
    intro fs h hdir hempty hquota
    obtain ⟨dir, hload, hsubs⟩ := hwithin
    unfold restoreDir
    rw [hload]
    dsimp only
    have hsub : ∀ e ∈ dir, e.isDir = true → Within cs flt st fuel e.hash := by
      intro e he hisDir
      rcases hsubs e he with ⟨hreg, -⟩ | ⟨-, hsub⟩
      · rw [isReg_not_isDir hreg] at hisDir
        cases hisDir
      · exact hsub
    apply restoreEntries_goes hread hpaths hvalid cred now hd hload _
      (fun e he hisDir => ih _ _ (dirHash_concat hd hload he hisDir) (hsub e he hisDir))
      (fun e he hisDir =>
        restoreDir_grafted hread hpaths noVfsFaults cred now fuel _ _ (dirHash_concat hd hload he hisDir))
      dir (fun _ he => he) (casTreeLoad_names hload).1.nodup h hdir (fun e _ => hempty _ ⟨_, [], rfl⟩) hquota

end

/-! ## An empty filesystem -/

/-- Every path is in normal form and fits the buffer. -/
def PathsKept (fs : Vfs) : Prop := ∀ n ∈ fs.nodes, NormalPath n.path ∧ n.path.length < VFS_PATH_MAX

theorem length_pathOf_prefix {p q : List Bytes} (hne : p ≠ []) (h : p <+: q) :
    (pathOf p).length ≤ (pathOf q).length := by
  obtain ⟨rest, rfl⟩ := h
  rw [pathOf_ne_nil p hne, pathOf_ne_nil (p ++ rest) (by simp [hne]), join_append, List.length_append]
  omega

/-- Whatever a call is given, what it stores is in normal form. -/
theorem carried_kept : Carried fun fs fs' => PathsKept fs → PathsKept fs' where
  refl _ h := h
  trans _ _ _ h h' hk := h' (h hk)
  call fs r path hcall hk := by
    rcases hcall with ⟨heq, -⟩ | ⟨comps, c, hnorm, hat⟩
    · rw [heq]
      exact hk
    · obtain ⟨-, hlen⟩ := vfsNormalize_ok _ path _ hnorm
      refine hat.each (P := fun p => NormalPath p ∧ p.length < VFS_PATH_MAX) (fun p hne hpre => ?_) hk
      have hc : Components p := by
        obtain ⟨rest, hrest⟩ := hpre
        exact ((components_append p rest).mp (hrest ▸ hat.normal)).1
      have hle := length_pathOf_prefix hne hpre
      exact ⟨⟨p, hc, hne, rfl⟩, by omega⟩

theorem vfsNew_empty (umask : BitVec 32) (p : List Bytes) : treeOf (vfsNew 0 umask).nodes p = none :=
  (treeOf_eq_none _ p).mpr fun _ hn => nomatch hn

section
variable {cs : Codecs} {flt : Faults} {st : Store} {root : Bytes} (hread : TreeReadable cs flt st root)

include hread

/-- A filesystem that has the paths of a snapshot has names in them that it keeps. -/
theorem pathsRestorable_of_triples {fs : Vfs} (hk : PathsKept fs)
    (heq : vfsTriples fs = triples (snapContent cs flt st root)) : PathsRestorable cs flt st root := by
  intro p e he
  obtain ⟨k, hcontent⟩ := hread.content_some he
  have hmem : (pathOf p, k) ∈ vfsTriples fs := by
    rw [heq]
    exact ⟨p, k, hcontent, rfl⟩
  obtain ⟨n, hn, hx⟩ := hmem
  obtain ⟨⟨comps, hc, -, hp⟩, hlen⟩ := hk n hn
  have hpath : pathOf p = n.path := (Prod.mk.inj hx).1
  have hcomps := pathOf_inj p comps (entryAt_names he) hc.names (hpath.trans hp)
  subst hcomps
  exact ⟨hc, by rw [hpath]; exact hlen⟩

/-- **An empty filesystem becomes the snapshot**, with one node for each path, exactly when the filesystem keeps the
paths of the snapshot as they are. -/
theorem restored_iff (vflt : VfsFaults) (cred : VfsCred) (now : Int) (umask : BitVec 32) (fuel : Nat) {fs' : Vfs}
    (hrun : vfsSnapRestore cs flt st vflt cred now fuel (vfsNew 0 umask) root = (some .ok, fs')) :
    (vfsTriples fs' = triples (snapContent cs flt st root) ∧ (paths fs').Nodup) ↔ PathsRestorable cs flt st root := by
  constructor
  · rintro ⟨heq, -⟩
    have hkept : PathsKept (restoreDir cs flt st vflt cred now fuel [47] root (vfsNew 0 umask)).2 :=
      carried_kept.dir vflt cred now fuel [47] root (vfsNew 0 umask) fun _ hn => nomatch hn
    rw [show restoreDir cs flt st vflt cred now fuel [47] root (vfsNew 0 umask) = _ from hrun] at hkept
    exact pathsRestorable_of_triples hread hkept heq
  · intro hpaths
    have hgraft := restoreDir_grafted hread hpaths vflt cred now fuel [] root rfl (vfsNew 0 umask) fs' shaped_nil
      (Or.inl rfl) (fun p _ => vfsNew_empty umask p) hrun
    refine ⟨?_, hgraft.shaped.paths_nodup⟩
    rw [vfsTriples_eq hgraft.shaped]
    congr 1
    funext p
    cases p with
    | nil =>
      rw [(vfsContent_closed hgraft.shaped).root]
      rfl
    | cons c p => exact hgraft.inside _ ⟨c, p, rfl⟩

end

end Smolvfs
