import Smolvfs.VfsRename

/-!
# What every call keeps

The invariant of the filesystem: the nodes are a tree, and the usage counter is the
sum of the file sizes and within the quota.  Every call succeeds and keeps it, or
fails and changes nothing (`Outcome`).
-/

namespace Smolvfs

open Octets Keyed Names PathTree

/-! ## What holds of a filesystem -/

/-- What `path_parent` gives with room enough. -/
def parentOf (path : Bytes) : Bytes := if dirPart path = [] then [47] else dirPart path

/-- A filesystem in order. -/
structure StoreOk (fs : Vfs) : Prop where
  normal : ∀ n ∈ fs.nodes, NormalPath n.path
  notRoot : ∀ n ∈ fs.nodes, n.path ≠ [47]
  distinct : (fs.nodes.map VfsNode.path).Nodup
  parents : ∀ n ∈ fs.nodes, parentOf n.path = [47] ∨ ∃ d ∈ fs.nodes, d.path = parentOf n.path ∧ d.type = .dir
  files : ∀ n ∈ fs.nodes, ∀ m ∈ fs.nodes, pathBelow n.path m.path = true → n.type = .dir
  usage : fs.usage = fileBytes fs.nodes
  quota : fs.quota > 0 → fs.usage ≤ fs.quota

/-- The counter is that of the nodes, and far from wrapping. -/
structure Counted (fs : Vfs) : Prop where
  distinct : Distinct nodeKey fs.nodes
  usage : fs.usage = fileBytes fs.nodes
  fits : fileBytes fs.nodes < 2 ^ 63

/-- The invariant of a run. -/
structure VfsInv (fs : Vfs) : Prop where
  shaped : Shaped fs.nodes
  usage : fs.usage = fileBytes fs.nodes
  fits : fileBytes fs.nodes < 2 ^ 63
  quota : fs.quota > 0 → fs.usage ≤ fs.quota

theorem VfsInv.counted {fs : Vfs} (h : VfsInv fs) : Counted fs := ⟨h.shaped.distinct, h.usage, h.fits⟩

theorem parentOf_pathOf (comps : List Bytes) (c : Bytes) (h : IsName 47 c) :
    parentOf (pathOf (comps ++ [c])) = pathOf comps := by
  unfold parentOf
  rw [dirPart_pathOf comps c h.2]
  by_cases hc : comps = []
  · subst hc
    rfl
  · rw [if_neg (join_ne_nil 47 comps hc), pathOf_ne_nil comps hc]

theorem VfsInv.storeOk {fs : Vfs} (h : VfsInv fs) : StoreOk fs where
  normal := h.shaped.normal
  notRoot n hn := by
    obtain ⟨hc, hne, hp⟩ := (h.shaped.normal n hn).key
    rw [hp]
    exact fun heq => hne ((pathOf_eq_root _ hc.names).mp heq)
  distinct := by
    have hd : (fs.nodes.map nodeKey).Nodup := h.shaped.distinct
    have hmap : fs.nodes.map nodeKey = (fs.nodes.map VfsNode.path).map (parts 47) := by
      rw [List.map_map]
      rfl
    rw [hmap] at hd
    exact hd.of_map
  parents n hn := by
    obtain ⟨hc, hne, hp⟩ := (h.shaped.normal n hn).key
    obtain ⟨init, last, hcat⟩ := (List.eq_nil_or_concat (nodeKey n)).resolve_left hne
    rw [List.concat_eq_append] at hcat
    rw [hcat] at hc hp
    have hlast := ((components_append init [last]).mp hc).2.names last (by simp)
    rw [hp, parentOf_pathOf init last hlast]
    rcases h.shaped.closed.parent init last n ((h.shaped.treeOf_eq_some _ n).mpr ⟨hn, hcat⟩) with rfl | ⟨d, hd, hdd⟩
    · exact .inl rfl
    · obtain ⟨hdm, hk⟩ := (h.shaped.treeOf_eq_some init d).mp hd
      exact .inr ⟨d, hdm, by rw [(h.shaped.normal d hdm).key.2.2, hk], hdd⟩
  files n hn m hm hb := by
    obtain ⟨hc, hne, hp⟩ := (h.shaped.normal n hn).key
    obtain ⟨hc', -, hp'⟩ := (h.shaped.normal m hm).key
    rw [hp, hp', pathBelow_pathOf _ _ hc.names hc'.names hne] at hb
    rcases h.shaped.closed.above ((h.shaped.treeOf_eq_some _ m).mpr ⟨hm, rfl⟩) hb with hnil | ⟨d, hd, hdd⟩
    · exact absurd hnil hne
    · rw [(h.shaped.treeOf_eq_some _ n).mpr ⟨hn, rfl⟩] at hd
      obtain rfl := Option.some.inj hd
      exact hdd
  usage := h.usage
  quota := h.quota

/-- A call that has succeeded and kept the invariant, or failed and changed nothing. -/
def Outcome (fs : Vfs) (r : VfsStatus × Vfs) : Prop := (r.1 = .ok ∧ VfsInv r.2) ∨ (r.1 ≠ .ok ∧ r.2 = fs)

theorem Outcome.error {fs : Vfs} {rc : VfsStatus} (h : rc ≠ .ok) : Outcome fs (rc, fs) := .inr ⟨h, rfl⟩

theorem Outcome.same {fs : Vfs} (h : VfsInv fs) (rc : VfsStatus) : Outcome fs (rc, fs) := by
  by_cases hrc : rc = .ok
  · exact .inl ⟨hrc, h⟩
  · exact .inr ⟨hrc, rfl⟩

/-! ## The counter -/

theorem sub64_eq (a b : Nat) (h : b ≤ a) (ha : a < 2 ^ 64) : sub64 a b = a - b := by
  unfold sub64
  have hsum : a + (2 ^ 64 - b % 2 ^ 64) = a - b + 2 ^ 64 := by omega
  rw [hsum, Nat.add_mod_right, Nat.mod_eq_of_lt (by omega)]

theorem add64_eq (a b : Nat) (h : a + b < 2 ^ 64) : add64 a b = a + b := Nat.mod_eq_of_lt h

/-- A node removed, as the nodes and the counter see it. -/
theorem removeNode_spec {fs : Vfs} (h : Counted fs) {i : Nat} {n : VfsNode} (hi : fs.nodes[i]? = some n) :
    (removeNode fs i).nodes = swapRemove fs.nodes i ∧ (removeNode fs i).quota = fs.quota ∧
      (removeNode fs i).umask = fs.umask ∧ (removeNode fs i).usage = fileBytes (fs.nodes.eraseIdx i) := by
  have her := fileBytes_eraseIdx fs.nodes i n hi
  have hfits := h.fits
  unfold removeNode
  rw [hi]
  refine ⟨rfl, rfl, rfl, ?_⟩
  show (if n.type = .file then sub64 fs.usage n.size else fs.usage) = _
  have hsize : fileSize n = if n.type = .file then n.size else 0 := rfl
  rw [h.usage]
  split
  · next ht =>
    rw [if_pos ht] at hsize
    rw [sub64_eq _ _ (by omega) (by omega)]
    omega
  · next ht =>
    rw [if_neg ht] at hsize
    omega

theorem removeNode_counted {fs : Vfs} (h : Counted fs) {i : Nat} {n : VfsNode} (hi : fs.nodes[i]? = some n) :
    Counted (removeNode fs i) ∧ (removeNode fs i).nodes.Perm (fs.nodes.eraseIdx i) ∧
      (removeNode fs i).quota = fs.quota ∧ (removeNode fs i).usage ≤ fs.usage := by
  obtain ⟨hnodes, hquota, -, husage⟩ := removeNode_spec h hi
  have her := fileBytes_eraseIdx fs.nodes i n hi
  have hfits := h.fits
  have hperm := swapRemove_perm fs.nodes i (List.getElem?_eq_some_iff.mp hi).1
  have hbytes := fileBytes_perm hperm
  refine ⟨⟨?_, ?_, ?_⟩, ?_, hquota, ?_⟩
  · rw [hnodes]
    exact Distinct.perm (h.distinct.filter _) (swapRemove_perm_filter h.distinct hi).symm
  · rw [husage, hnodes, hbytes]
  · rw [hnodes, hbytes]
    omega
  · rw [hnodes]
    exact hperm
  · rw [husage, h.usage]
    omega

/-- **Taking out what is below a path keeps the counter in step.** -/
theorem deleteBelow_counted (norm : Bytes) (i : Nat) (fs : Vfs) (h : Counted fs) :
    Counted (deleteBelow norm i fs) ∧ (deleteBelow norm i fs).quota = fs.quota ∧
      (deleteBelow norm i fs).usage ≤ fs.usage := by
  induction i generalizing fs with
  | zero => exact ⟨h, rfl, Nat.le_refl _⟩
  | succ i ih =>
    unfold deleteBelow
    cases hn : fs.nodes[i]? with
    | none => exact ih fs h
    | some n =>
      rw [Option.any_some]
      split
      · obtain ⟨hcount, -, hquota, hle⟩ := removeNode_counted h hn
        obtain ⟨h1, h2, h3⟩ := ih (removeNode fs i) hcount
        exact ⟨h1, by rw [h2, hquota], Nat.le_trans h3 hle⟩
      · exact ih fs h

/-! ## Writing and creating -/

/-- Directories count for nothing. -/
theorem Grown.fileBytes {fs fs' : Vfs} {comps : List Bytes} {added : List VfsNode} (hg : Grown fs fs' comps added) :
    fileBytes fs'.nodes = fileBytes fs.nodes := by
  have hzero : Smolvfs.fileBytes added = 0 := by
    have hdirs : ∀ n ∈ added, n.type = .dir := fun n hn => (hg.dirs n hn).1
    clear hg
    induction added with
    | nil => rfl
    | cons n added ih =>
      have hn : fileSize n = 0 := by
        unfold fileSize
        rw [if_neg (by simp [hdirs n (by simp)])]
      show fileSize n + Smolvfs.fileBytes added = 0
      rw [hn, ih fun m hm => hdirs m (by simp [hm])]
  rw [hg.eq, fileBytes_append, hzero, Nat.add_zero]

theorem add64_sub64 (usage old len : Nat) (hold : old ≤ usage) (husage : usage < 2 ^ 63) (h : usage + len < 2 ^ 64) :
    add64 (sub64 usage old) len = usage - old + len := by
  rw [sub64_eq usage old hold (by omega), add64_eq _ _ (by omega)]

section
variable {fs fs1 : Vfs} (h : VfsInv fs) (cred : VfsCred) (path data : Bytes) (createParents : Bool) (now : Int)
  (hfit : fileBytes fs.nodes + data.length < 2 ^ 63) {comps : List Bytes} {added : List VfsNode}
  (hg : Grown fs fs1 comps added)

include h hfit hg

/-- A file of the right size appended. -/
theorem VfsInv.addFile (hq : ¬ (fs.quota > 0 ∧ add64 (sub64 fs.usage 0) data.length > fs.quota)) (p : Bytes)
    (mode owner : BitVec 32) (hs : Shaped (fs1.nodes ++ [newNode p .file mode owner data now])) :
    VfsInv { fs1 with
      nodes := fs1.nodes ++ [newNode p .file mode owner data now]
      usage := add64 fs1.usage data.length } := by
  have hfits := h.fits
  have husage := h.usage
  have hsum : add64 fs1.usage data.length = fs.usage + data.length := by
    have husage' : fs1.usage = fs.usage := by rw [hg.eq]
    rw [husage', add64_eq _ _ (by omega)]
  have hbytes : fileBytes (fs1.nodes ++ [newNode p .file mode owner data now]) = fileBytes fs.nodes + data.length := by
    rw [fileBytes_append, hg.fileBytes]
    simp [fileBytes, fileSize, newNode, VfsNode.size]
  rw [add64_sub64 _ _ _ (by omega) (by omega) (by omega)] at hq
  refine ⟨hs, ?_, ?_, ?_⟩
  · show add64 fs1.usage data.length = _
    rw [hsum, hbytes, husage]
  · show fileBytes (fs1.nodes ++ _) < _
    rw [hbytes]
    exact hfit
  · show fs1.quota > 0 → add64 fs1.usage data.length ≤ fs1.quota
    rw [hsum, hg.eq]
    intro hpos
    show _ ≤ fs.quota
    have hpos' : fs.quota > 0 := hpos
    omega

/-- A file overwritten. -/
theorem VfsInv.setFile {i : Nat} {n : VfsNode} (hi : fs.nodes[i]? = some n) (hfile : n.type = .file)
    (hq : ¬ (fs.quota > 0 ∧ add64 (sub64 fs.usage n.size) data.length > fs.quota))
    (hs : Shaped (fs1.nodes.set i { n with data := data, mtime := now })) :
    VfsInv { fs1 with
      nodes := fs1.nodes.set i { n with data := data, mtime := now }
      usage := add64 (sub64 fs1.usage n.size) data.length } := by
  have hfits := h.fits
  have husage := h.usage
  have hn : fileSize n = n.size := by
    unfold fileSize
    rw [if_pos hfile]
  have hm : fileSize { n with data := data, mtime := now } = data.length := by
    unfold fileSize
    rw [if_pos (show n.type = .file from hfile)]
    rfl
  have hle := fileSize_le fs.nodes n (List.mem_of_getElem? hi)
  have hbytes := fileBytes_set fs1.nodes i n { n with data := data, mtime := now } (hg.getElem? hi)
  rw [hg.fileBytes, hn, hm] at hbytes
  have husage' : fs1.usage = fs.usage := by rw [hg.eq]
  have hquota' : fs1.quota = fs.quota := by rw [hg.eq]
  have hsum := add64_sub64 fs.usage n.size data.length (by omega) (by omega) (by omega)
  rw [hsum] at hq
  refine ⟨hs, ?_, ?_, ?_⟩
  · show add64 (sub64 fs1.usage n.size) data.length = fileBytes (fs1.nodes.set i _)
    rw [husage', hsum]
    omega
  · show fileBytes (fs1.nodes.set i _) < _
    omega
  · show fs1.quota > 0 → add64 (sub64 fs1.usage n.size) data.length ≤ fs1.quota
    rw [husage', hquota', hsum]
    intro hpos
    omega

end

/-- Nodes that count as much as before, with the same counter. -/
theorem VfsInv.recounted {fs fs' : Vfs} (h : VfsInv fs) (hs : Shaped fs'.nodes)
    (hbytes : fileBytes fs'.nodes = fileBytes fs.nodes) (husage : fs'.usage = fs.usage)
    (hquota : fs'.quota = fs.quota) :
    VfsInv fs' := by
  refine ⟨hs, by rw [husage, hbytes, h.usage], by rw [hbytes]; exact h.fits, ?_⟩
  rw [husage, hquota]
  exact h.quota

/-- Nodes removed, with the counter in step. -/
theorem VfsInv.removed {fs fs' : Vfs} (h : VfsInv fs) (hs : Shaped fs'.nodes) (hc : Counted fs')
    (hquota : fs'.quota = fs.quota) (hle : fs'.usage ≤ fs.usage) : VfsInv fs' := by
  refine ⟨hs, hc.usage, hc.fits, ?_⟩
  rw [hquota]
  intro hpos
  have := h.quota hpos
  omega

section
variable {fs : Vfs} (h : VfsInv fs) (cred : VfsCred) (now : Int)

include h

/-- The parents that are created before a call goes on. -/
theorem VfsInv.parents {path : Bytes} {comps : List Bytes} {c : Bytes} (hp : Placed path comps c) {createParents : Bool}
    {fs1 : Vfs} (hrun : prepareParents noVfsFaults fs cred (pathOf (comps ++ [c])) createParents now = (.ok, fs1)) :
    ∃ added, Grown fs fs1 comps added :=
  ((hp.parents h.shaped cred path createParents now hrun).resolve_right (by simp)).2.2.2

theorem vfsWrite_outcome (path data : Bytes) (createParents : Bool)
    (hfit : fileBytes fs.nodes + data.length < 2 ^ 63) :
    Outcome fs (vfsWrite noVfsFaults fs cred path data createParents now) := by
  rcases vfsWrite_settled h.shaped cred path createParents now data with ⟨hok, hs⟩ | herr
  · refine .inl ⟨hok, ?_⟩
    have hstep := vfsWrite_step noVfsFaults fs cred path data createParents now
    generalize vfsWrite noVfsFaults fs cred path data createParents now = r at hstep hok hs ⊢
    cases hstep with
    | refused hrc => exact absurd hok hrc
    | parents hp hrun hrc => exact absurd hok hrc
    | memory hp hrun hflt => cases hok
    | replaced hp hrun hi hnode hfile hperm hquota =>
      obtain ⟨added, hg⟩ := h.parents cred now hp hrun
      exact h.setFile data now hfit hg hi hfile hquota hs
    | new hp hrun hnode hquota =>
      obtain ⟨added, hg⟩ := h.parents cred now hp hrun
      exact h.addFile data now hfit hg hquota _ _ _ hs
  · exact .inr herr

theorem vfsMkdir_outcome (path : Bytes) (createParents : Bool) :
    Outcome fs (vfsMkdir noVfsFaults fs cred path createParents now) := by
  rcases vfsMkdir_settled h.shaped cred path createParents now with ⟨hok, hs⟩ | herr
  · refine .inl ⟨hok, ?_⟩
    have hstep := vfsMkdir_step noVfsFaults fs cred path createParents now
    generalize vfsMkdir noVfsFaults fs cred path createParents now = r at hstep hok hs ⊢
    cases hstep with
    | refused hrc => exact absurd hok hrc
    | root hnorm => exact h
    | there hp hnode hdir => exact h
    | parents hp hrun hrc => exact absurd hok hrc
    | memory hp hrun hflt => cases hok
    | new hp hrun hnode =>
      obtain ⟨added, hg⟩ := h.parents cred now hp hrun
      refine h.recounted hs ?_ (by rw [hg.eq]) (by rw [hg.eq])
      show fileBytes (_ ++ _) = _
      rw [fileBytes_append, hg.fileBytes]
      simp [fileBytes, fileSize, newNode]
  · exact .inr herr

theorem vfsCopy_outcome (srcPath dstPath : Bytes) (createParents : Bool)
    (hfit : ∀ snorm src, vfsNormalize VFS_PATH_MAX srcPath = .ok snorm → nodeAt fs snorm = some src →
      fileBytes fs.nodes + src.size < 2 ^ 63) :
    Outcome fs (vfsCopy noVfsFaults fs cred srcPath dstPath createParents now) := by
  rcases vfsCopy_step noVfsFaults fs cred createParents now srcPath dstPath with
    ⟨rc, hrc, heq⟩ | ⟨src, ⟨snorm, hnorm, hsrc⟩, heq⟩
  · rw [heq]
    exact Outcome.error hrc
  · rw [heq]
    exact vfsWrite_outcome h cred now dstPath src.data createParents (hfit snorm src hnorm hsrc)

/-! ## Removing and renaming -/

theorem vfsDelete_outcome (path : Bytes) : Outcome fs (vfsDelete fs cred path) := by
  rcases vfsDelete_settled h.shaped cred path with ⟨hok, hs⟩ | herr
  · refine .inl ⟨hok, ?_⟩
    have hstep := vfsDelete_step fs cred path
    generalize vfsDelete fs cred path = r at hstep hok hs ⊢
    cases hstep with
    | refused hrc => exact absurd hok hrc
    | removed hi hperm hempty =>
      obtain ⟨hc, -, hquota, hle⟩ := removeNode_counted h.counted hi
      exact h.removed hs hc hquota hle
  · exact .inr herr

theorem vfsDeleteRecursive_outcome (path : Bytes) : Outcome fs (vfsDeleteRecursive fs cred path) := by
  rcases vfsDeleteRecursive_settled h.shaped cred path with ⟨hok, hs⟩ | herr
  · refine .inl ⟨hok, ?_⟩
    have hstep := vfsDeleteRecursive_step fs cred path
    generalize vfsDeleteRecursive fs cred path = r at hstep hok hs ⊢
    cases hstep with
    | refused hrc => exact absurd hok hrc
    | removed hi hperm hfile =>
      obtain ⟨hc, -, hquota, hle⟩ := removeNode_counted h.counted hi
      exact h.removed hs hc hquota hle
    | gone hn hperm hfind =>
      obtain ⟨hc, hquota, hle⟩ := deleteBelow_counted _ fs.nodes.length fs h.counted
      exact h.removed hs hc hquota hle
    | cleared hn hperm hfind =>
      obtain ⟨hc, hquota, hle⟩ := deleteBelow_counted _ fs.nodes.length fs h.counted
      obtain ⟨i, hi, hat, -⟩ := h.shaped.removeTree hn
      obtain rfl := Option.some.inj (hfind.symm.trans hi)
      obtain ⟨hc', -, hquota', hle'⟩ := removeNode_counted hc hat
      exact h.removed hs hc' (hquota'.trans hquota) (Nat.le_trans hle' hle)
  · exact .inr herr

omit h in
theorem fileBytes_moveNode (onorm nnorm : Bytes) (now : Int) (nodes : List VfsNode) :
    fileBytes (nodes.map (moveNode onorm nnorm now)) = fileBytes nodes := by
  unfold fileBytes
  rw [List.map_map]
  congr 1
  refine List.map_congr_left fun n _ => ?_
  show fileSize (moveNode onorm nnorm now n) = fileSize n
  unfold moveNode renameBelow
  split
  · rfl
  · split <;> rfl

/-- Taking out the destination keeps the counter in step. -/
theorem clearDst_counted (nnorm : Bytes) : Counted (clearDst fs nnorm) ∧ (clearDst fs nnorm).quota = fs.quota ∧
    (clearDst fs nnorm).usage ≤ fs.usage := by
  unfold clearDst
  cases hdst : nodeAt fs nnorm with
  | none =>
    rw [findNode_none hdst]
    exact ⟨h.counted, rfl, Nat.le_refl _⟩
  | some dst =>
    obtain ⟨j, hfind, hj⟩ := findNode_some hdst
    rw [hfind]
    obtain ⟨hc, -, hquota, hle⟩ := removeNode_counted h.counted hj
    exact ⟨hc, hquota, hle⟩

theorem vfsRename_outcome (oldPath newPath : Bytes) :
    Outcome fs (vfsRename noVfsFaults fs cred oldPath newPath now) := by
  rcases vfsRename_settled h.shaped cred oldPath newPath now with ⟨hok, hs⟩ | herr
  · refine .inl ⟨hok, ?_⟩
    have hstep := vfsRename_step noVfsFaults fs cred oldPath newPath now
    generalize vfsRename noVfsFaults fs cred oldPath newPath now = r at hstep hok hs ⊢
    cases hstep with
    | refused hrc => exact absurd hok hrc
    | same hold hnew => exact h
    | lost hgo hfind => cases hok
    | orphan hgo hparent => exact absurd hok hparent
    | moved hgo hfind hi hparent =>
      obtain ⟨rfl, init, c, rfl, ht⟩ := hgo.tree h.shaped
      obtain rfl := Option.some.inj (ht.source.symm.trans hfind)
      obtain ⟨hc, hquota, hle⟩ := clearDst_counted h (pathOf (init ++ [c]))
      have hinv := h.removed ht.cleared hc hquota hle
      rw [renameNode_shaped ht.cleared hi] at hs ⊢
      exact hinv.recounted hs (fileBytes_moveNode _ _ now _) rfl rfl
  · exact .inr herr

end

end Smolvfs
