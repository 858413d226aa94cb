import Smolvfs.Lib.Runs
import Smolvfs.VfsRuns

/-!
# Nodes that can be addressed

`vfs_stat`, and what it says at the path a node is stored under.

`stored_nodes_addressable`: in a run whose renames take no node to a path of
`VFS_PATH_MAX` octets or more, `vfs_stat` as an administrator finds every stored path,
and while memory lasts it finds that very node.  `rename_unaddressable`: any other
rename of a directory leaves a node that no call comes to.
-/

namespace Smolvfs

open Octets Keyed Names PathTree Runs

/-! ## `vfs_stat` -/

/-- `struct vfs_stat` -/
structure VfsStat where
  path : Bytes
  type : VfsType
  mode : BitVec 32
  owner : BitVec 32
  size : Nat
  ctime : Int
  mtime : Int
  deriving DecidableEq

/-- `fill_stat` -/
def fillStat (n : VfsNode) : VfsStat := ⟨n.path, n.type, n.mode, n.owner, n.size, n.ctime, n.mtime⟩

/-- `vfs_stat` -/
def vfsStat (fs : Vfs) (cred : VfsCred) (path : Bytes) : Except VfsStatus VfsStat :=
  match vfsNormalize VFS_PATH_MAX path with
  | .error rc => .error rc
  | .ok norm =>
    if norm = [47] then .ok ⟨[47], .dir, VFS_MODE_DIR_DEFAULT, 0#32, 0, 0, 0⟩
    else
      match nodeAt fs norm with
      | none => .error .enotfound
      | some n => if checkPerm n cred PERM_R = false then .error .eperm else .ok (fillStat n)

/-! ## Paths that a call finds -/

/-- A path in normal form and short enough for `vfs_normalize`. -/
structure ShortPath (path : Bytes) : Prop where
  normal : NormalPath path
  short : path.length < VFS_PATH_MAX

theorem ShortPath.self {path : Bytes} (h : ShortPath path) : vfsNormalize VFS_PATH_MAX path = .ok path ∧ path ≠ [47] :=
  (normalPath_iff path h.short).mp h.normal

theorem Placed.path {path : Bytes} {comps : List Bytes} {c : Bytes} (h : Placed path comps c) :
    ShortPath (pathOf (comps ++ [c])) := ⟨⟨_, h.all, by simp, rfl⟩, h.short⟩

/-- The path of what is above a short path. -/
theorem shortPath_above {path : Bytes} {comps p : List Bytes} {c : Bytes} (h : Placed path comps c) (hne : p ≠ [])
    (hpre : p <+: comps) : ShortPath (pathOf p) := by
  obtain ⟨rest, rfl⟩ := hpre
  have hall := h.all
  rw [List.append_assoc] at hall
  refine ⟨⟨p, ((components_append p _).mp hall).1, hne, rfl⟩, ?_⟩
  have hlen := h.short
  rw [pathOf_ne_nil _ (by simp), List.append_assoc, join_append, List.length_append] at hlen
  rw [pathOf_ne_nil p hne]
  omega

/-- An administrator finds what is stored under a short path. -/
theorem vfsStat_stored {fs : Vfs} {n : VfsNode} (hn : n ∈ fs.nodes) (h : ShortPath n.path) :
    ∃ m, nodeAt fs n.path = some m ∧ vfsStat fs adminCred n.path = .ok (fillStat m) := by
  obtain ⟨hnorm, hroot⟩ := h.self
  obtain ⟨m, hm⟩ : ∃ m, nodeAt fs n.path = some m := by
    cases hat : nodeAt fs n.path with
    | some m => exact ⟨m, rfl⟩
    | none =>
      unfold nodeAt at hat
      exact absurd (List.find?_eq_none.mp hat n hn) (by simp)
  refine ⟨m, hm, ?_⟩
  unfold vfsStat
  rw [hnorm]
  simp only [if_neg hroot, hm]
  rfl

/-! ## What a call stores -/

/-- All the stored paths are short. -/
def AllShort (fs : Vfs) : Prop := ∀ n ∈ fs.nodes, ShortPath n.path

section
variable {fs : Vfs} (h : AllShort fs)

include h

theorem AllShort.grown {path : Bytes} {comps : List Bytes} {c : Bytes} (hp : Placed path comps c) {fs1 : Vfs}
    (hg : ∃ added, Grown fs fs1 comps added) : AllShort fs1 := by
  obtain ⟨added, hg⟩ := hg
  rw [hg.eq]
  intro n hn
  rcases List.mem_append.mp hn with hn | hn
  · exact h n hn
  · obtain ⟨-, -, p, hne, hpre, hpath⟩ := hg.dirs n hn
    rw [hpath]
    exact shortPath_above hp hne hpre

theorem AllShort.append (n : VfsNode) (hn : ShortPath n.path) {nodes : List VfsNode} (heq : nodes = fs.nodes ++ [n]) :
    ∀ m ∈ nodes, ShortPath m.path := by
  rw [heq]
  intro m hm
  rcases List.mem_append.mp hm with hm | hm
  · exact h m hm
  · obtain rfl := List.mem_singleton.mp hm
    exact hn

theorem AllShort.subset {fs' : Vfs} (hsub : fs'.nodes ⊆ fs.nodes) : AllShort fs' := fun n hn => h n (hsub hn)

theorem AllShort.remove (i : Nat) : AllShort (removeNode fs i) := by
  cases hi : fs.nodes[i]? with
  | none =>
    unfold removeNode
    rw [hi]
    exact h
  | some n => exact h.subset fun m hm => (removeNode_perm hi).mem_iff.mpr (List.mem_cons_of_mem _ hm)

theorem vfsWrite_short (flt : VfsFaults) (cred : VfsCred) (path data : Bytes) (createParents : Bool) (now : Int) :
    AllShort (vfsWrite flt fs cred path data createParents now).2 := by
  have hstep := vfsWrite_step flt fs cred path data createParents now
  generalize vfsWrite flt fs cred path data createParents now = r at hstep ⊢
  cases hstep with
  | refused hrc => exact h
  | parents hp hrun hrc => exact h.grown hp (hp.grown hrun)
  | memory hp hrun hflt => exact h.grown hp (hp.grown hrun)
  | @replaced comps c hp fs1 hrun i n hi hnode hfile hperm hquota =>
    intro m hm
    rcases List.mem_or_eq_of_mem_set hm with hm | rfl
    · exact h.grown hp (hp.grown hrun) m hm
    · exact h n (List.mem_of_getElem? hi)
  | new hp hrun hnode hquota => exact (h.grown hp (hp.grown hrun)).append _ hp.path rfl

theorem vfsMkdir_short (flt : VfsFaults) (cred : VfsCred) (path : Bytes) (createParents : Bool) (now : Int) :
    AllShort (vfsMkdir flt fs cred path createParents now).2 := by
  have hstep := vfsMkdir_step flt fs cred path createParents now
  generalize vfsMkdir flt fs cred path createParents now = r at hstep ⊢
  cases hstep with
  | refused hrc => exact h
  | root hnorm => exact h
  | there hp hnode hdir => exact h
  | parents hp hrun hrc => exact h.grown hp (hp.grown hrun)
  | memory hp hrun hflt => exact h.grown hp (hp.grown hrun)
  | new hp hrun hnode => exact (h.grown hp (hp.grown hrun)).append _ hp.path rfl

theorem vfsDelete_short (cred : VfsCred) (path : Bytes) : AllShort (vfsDelete fs cred path).2 := by
  have hstep := vfsDelete_step fs cred path
  generalize vfsDelete fs cred path = r at hstep ⊢
  cases hstep with
  | refused hrc => exact h
  | removed hi hperm hempty => exact h.remove _

theorem deleteBelow_short (norm : Bytes) : AllShort (deleteBelow norm fs.nodes.length fs) :=
  h.subset fun _ hn => (List.mem_filter.mp ((deleteBelow_all norm fs).mem_iff.mp hn)).1

theorem vfsDeleteRecursive_short (cred : VfsCred) (path : Bytes) : AllShort (vfsDeleteRecursive fs cred path).2 := by
  have hstep := vfsDeleteRecursive_step fs cred path
  generalize vfsDeleteRecursive fs cred path = r at hstep ⊢
  cases hstep with
  | refused hrc => exact h
  | removed hi hperm hfile => exact h.remove _
  | gone hn hperm hfind => exact deleteBelow_short h _
  | cleared hn hperm hfind => exact (deleteBelow_short h _).remove _

end

/-! ## What a rename stores -/

/-- A rename takes nothing to a path that is too long. -/
def StaysShort (fs : Vfs) (cred : VfsCred) (c : VfsCall) : Prop :=
  ∀ oldPath newPath, c = .rename oldPath newPath → ∀ onorm nnorm src,
    RenameGoes fs cred oldPath newPath onorm nnorm src → (∃ d ∈ fs.nodes, d.path = onorm ∧ d.type = .dir) →
    checkParent (clearDst fs nnorm) nnorm = .ok → ∀ n ∈ fs.nodes, pathBelow onorm n.path = true →
      nnorm.length + (n.path.length - onorm.length) < VFS_PATH_MAX

/-- A path below one directory, moved below another. -/
theorem normalPath_moved {onorm nnorm path : Bytes} (ho : NormalPath onorm) (hn : NormalPath nnorm)
    (hp : NormalPath path)
    (hb : pathBelow onorm path = true) : NormalPath (nnorm ++ path.drop onorm.length) := by
  obtain ⟨old, hold, hone, rfl⟩ := ho
  obtain ⟨new, hnew, hnne, rfl⟩ := hn
  obtain ⟨comps, hc, -, rfl⟩ := hp
  obtain ⟨name, names, rfl⟩ := (pathBelow_pathOf old comps hold.names hc.names hone).mp hb
  refine ⟨new ++ name :: names, (components_append _ _).mpr ⟨hnew, ((components_append _ _).mp hc).2⟩, by simp, ?_⟩
  rw [pathOf_ne_nil (old ++ _) (by simp), pathOf_ne_nil (new ++ _) (by simp), pathOf_ne_nil old hone,
    pathOf_ne_nil new hnne, join_append, join_append, List.drop_left]

theorem renameNode_short (flt : VfsFaults) {fs : Vfs} (h : AllShort fs) {i : Nat} {src : VfsNode}
    (hi : fs.nodes[i]? = some src) {onorm nnorm : Bytes}
    (ho : ShortPath onorm) (hn : ShortPath nnorm) (now : Int)
    (hshort : src.type = .dir → ∀ n ∈ fs.nodes, pathBelow onorm n.path = true →
      nnorm.length + (n.path.length - onorm.length) < VFS_PATH_MAX) :
    AllShort (renameNode flt fs i src onorm nnorm now).2 := by
  intro n hmem
  obtain ⟨m, hm, hmn⟩ := forall₂_mem_right (renameNode_nodes flt fs i src onorm nnorm now hi) n hmem
  rcases hmn.path with heq | ⟨-, heq⟩ | ⟨hd, hb, heq⟩
  · rw [heq]
    exact h m hm
  · rw [heq]
    exact hn
  · rw [heq]
    refine ⟨normalPath_moved ho.normal hn.normal (h m hm).normal hb, ?_⟩
    rw [List.length_append, List.length_drop]
    exact hshort hd m hm hb

theorem vfsRename_short (flt : VfsFaults) {fs : Vfs} (h : AllShort fs) (cred : VfsCred) (oldPath newPath : Bytes)
    (now : Int) (hshort : StaysShort fs cred (.rename oldPath newPath)) :
    AllShort (vfsRename flt fs cred oldPath newPath now).2 := by
  have hstep := vfsRename_step flt fs cred oldPath newPath now
  generalize vfsRename flt fs cred oldPath newPath now = r at hstep ⊢
  cases hstep with
  | refused hrc => exact h
  | same hold hnew => exact h
  | lost hgo hfind => exact h.subset (clearDst_subset fs _)
  | orphan hgo hparent => exact h.subset (clearDst_subset fs _)
  | @moved onorm nnorm src src' i hgo hfind hi hparent =>
    have hsub := clearDst_subset fs nnorm
    obtain ⟨hmem, rfl⟩ := nodeAt_some hgo.source
    obtain ⟨hmem', hpath⟩ := nodeAt_some hfind
    obtain ⟨init, c, hnnorm, hp⟩ := placed_of_norm hgo.new hgo.newRoot
    refine renameNode_short flt (h.subset hsub) hi (h src hmem) (hnnorm ▸ hp.path) now fun hdir n hn hb => ?_
    exact hshort oldPath newPath rfl src.path nnorm src hgo ⟨src', hsub hmem', hpath, hdir⟩ hparent n (hsub hn) hb

/-! ## Runs -/

/-- A call with what comes with it: which allocations fail, the caller and the time. -/
structure VfsInput where
  flt : VfsFaults
  cred : VfsCred
  now : Int
  call : VfsCall

def vfsStep (fs : Vfs) (i : VfsInput) (fs' : Vfs) : Prop := fs' = (i.call.run i.flt i.cred i.now fs).2

/-- One call. -/
theorem VfsCall.short {fs : Vfs} (h : AllShort fs) (flt : VfsFaults) (cred : VfsCred) (now : Int) (c : VfsCall)
    (hshort : StaysShort fs cred c) : AllShort (c.run flt cred now fs).2 := by
  cases c with
  | write path data createParents => exact vfsWrite_short h flt cred path data createParents now
  | mkdir path createParents => exact vfsMkdir_short h flt cred path createParents now
  | delete path => exact vfsDelete_short h cred path
  | deleteRecursive path => exact vfsDeleteRecursive_short h cred path
  | rename oldPath newPath => exact vfsRename_short flt h cred oldPath newPath now hshort
  | copy srcPath dstPath createParents =>
    show AllShort (vfsCopy flt fs cred srcPath dstPath createParents now).2
    rcases vfsCopy_step flt fs cred createParents now srcPath dstPath with ⟨rc, -, heq⟩ | ⟨src, -, heq⟩
    · rw [heq]
      exact h
    · rw [heq]
      exact vfsWrite_short h flt cred dstPath src.data createParents now

theorem VfsCall.settled {fs : Vfs} (h : Shaped fs.nodes) (cred : VfsCred) (now : Int) (c : VfsCall) :
    Settled fs (c.run noVfsFaults cred now fs) := by
  cases c with
  | write path data createParents => exact vfsWrite_settled h cred path createParents now data
  | mkdir path createParents => exact vfsMkdir_settled h cred path createParents now
  | delete path => exact vfsDelete_settled h cred path
  | deleteRecursive path => exact vfsDeleteRecursive_settled h cred path
  | rename oldPath newPath => exact vfsRename_settled h cred oldPath newPath now
  | copy srcPath dstPath createParents => exact vfsCopy_settled h cred createParents now srcPath dstPath

theorem VfsCall.shaped {fs : Vfs} (h : Shaped fs.nodes) (cred : VfsCred) (now : Int) (c : VfsCall) :
    Shaped (c.run noVfsFaults cred now fs).2.nodes := by
  rcases c.settled h cred now with ⟨-, hs⟩ | ⟨-, heq⟩
  · exact hs
  · rwa [heq]

/-- **Every stored node stays addressable** in a run whose renames take nothing to a path that is too long:
whatever allocations fail its path is found, and when none fails the node itself is. -/
theorem stored_nodes_addressable (quota : Nat) (umask : BitVec 32) :
    (∀ fs, Run vfsStep (fun fs i => StaysShort fs i.cred i.call) (vfsNew quota umask) fs →
      ∀ n ∈ fs.nodes, ∃ st, vfsStat fs adminCred n.path = .ok st ∧ st.path = n.path) ∧
    ∀ fs, Run vfsStep (fun fs i => StaysShort fs i.cred i.call ∧ i.flt = noVfsFaults) (vfsNew quota umask) fs →
      ∀ n ∈ fs.nodes, vfsStat fs adminCred n.path = .ok (fillStat n) := by
  have hshort : ∀ fs, Run vfsStep (fun fs i => StaysShort fs i.cred i.call) (vfsNew quota umask) fs → AllShort fs := by
    intro fs hrun
    refine hrun.invariant AllShort (by simp [AllShort, vfsNew]) ?_
    rintro fs i fs' h rfl hg
    exact i.call.short h i.flt i.cred i.now hg
  refine ⟨fun fs hrun n hn => ?_, fun fs hrun n hn => ?_⟩
  · obtain ⟨m, hm, hstat⟩ := vfsStat_stored hn (hshort fs hrun n hn)
    exact ⟨_, hstat, (nodeAt_some hm).2⟩
  · have hshaped : Shaped fs.nodes := by
      refine hrun.invariant (fun fs => Shaped fs.nodes) shaped_nil ?_
      rintro fs i fs' h rfl ⟨-, hflt⟩
      rw [hflt]
      exact i.call.shaped h i.cred i.now
    obtain ⟨m, hm, hstat⟩ := vfsStat_stored hn (hshort fs (hrun.mono fun _ _ hg => hg.1) n hn)
    -- the paths are distinct, so there is no other node to find
    obtain ⟨hmem, hpath⟩ := nodeAt_some hm
    obtain rfl : m = n := hshaped.distinct.unique hmem hn (by unfold nodeKey; rw [hpath])
    exact hstat

/-- A filesystem after one write that creates a directory. -/
def smallInput : VfsInput := ⟨noVfsFaults, adminCred, 0, .write (lit ['/', 'a', '/', 'b']).bytes [1] true⟩

theorem stored_nodes_addressable_small :
    ∃ fs, Run vfsStep (fun fs i => StaysShort fs i.cred i.call ∧ i.flt = noVfsFaults)
      (vfsNew 0 0#32) fs ∧ fs.nodes.length = 2 ∧ (∀ n ∈ fs.nodes, vfsStat fs adminCred n.path = .ok (fillStat n)) ∧
      ∀ n ∈ fs.nodes, ∃ st, vfsStat fs adminCred n.path = .ok st ∧ st.path = n.path := by
  have hshort : StaysShort (vfsNew 0 0#32) adminCred smallInput.call := by
    intro oldPath newPath h
    cases h
  have hrun : Run vfsStep (fun fs i => StaysShort fs i.cred i.call ∧ i.flt = noVfsFaults) (vfsNew 0 0#32)
      (smallInput.call.run noVfsFaults adminCred 0 (vfsNew 0 0#32)).2 :=
    (Run.refl _).tail (a := smallInput) rfl ⟨hshort, rfl⟩
  exact ⟨_, hrun, by decide +kernel, (stored_nodes_addressable 0 0#32).2 _ hrun,
    (stored_nodes_addressable 0 0#32).1 _ (hrun.mono fun _ _ hg => hg.1)⟩

/-! ## A path that is too long -/

/-- **Any other rename leaves a node that no call comes to.** -/
theorem rename_unaddressable {fs : Vfs} (h : Shaped fs.nodes) (cred : VfsCred) (oldPath newPath : Bytes) (now : Int)
    (hlong : ¬ StaysShort fs cred (.rename oldPath newPath)) :
    ∃ n ∈ (vfsRename noVfsFaults fs cred oldPath newPath now).2.nodes, ∀ cred',
      vfsStat (vfsRename noVfsFaults fs cred oldPath newPath now).2 cred' n.path = .error .ebadpath := by
  unfold StaysShort at hlong
  simp only [not_forall] at hlong
  obtain ⟨old, new, heq, onorm, nnorm, src, hgo, hdir, hparent, n, hn, hb, hlen⟩ := hlong
  obtain ⟨rfl, rfl⟩ := VfsCall.rename.inj heq
  rw [hgo.eq noVfsFaults now]
  obtain ⟨rfl, init, c, rfl, ht⟩ := hgo.tree h
  obtain ⟨i, hfind, hi⟩ := findNode_some ht.source
  simp only [hfind, ht.source]
  rw [if_neg (not_not.mpr hparent), renameNode_shaped ht.cleared hi]
  -- the node is not the destination, which is not below the source
  have hmem : n ∈ (clearDst fs (pathOf (init ++ [c]))).nodes := by
    rcases clearDst_cases fs (pathOf (init ++ [c])) with ⟨-, hsame⟩ | ⟨dst, hdst, hperm⟩
    · rw [hsame]
      exact hn
    · rcases List.mem_cons.mp (hperm.mem_iff.mp hn) with rfl | hn
      · rw [(nodeAt_some hdst).2, hgo.notBelow] at hb
        cases hb
      · exact hn
  refine ⟨_, List.mem_map_of_mem hmem, fun cred' => ?_⟩
  have hpath : (moveNode src.path (pathOf (init ++ [c])) now n).path = pathOf (init ++ [c]) ++
    n.path.drop src.path.length := by
    have hne : n.path ≠ src.path := by
      intro hsame
      rw [hsame, pathBelow_iff_starts] at hb
      have := hb.length_le
      rw [List.length_append, List.length_singleton] at this
      omega
    unfold moveNode renameBelow
    rw [if_neg hne, if_pos hb]
  rw [hpath]
  unfold vfsStat vfsNormalize
  have hhead : (pathOf (init ++ [c]) ++ n.path.drop src.path.length).head? = some 47 := by
    rw [pathOf_ne_nil _ (by simp)]
    cases init <;> simp
  rw [if_neg (by simp [hhead]), if_pos]
  rw [List.length_append, List.length_drop]
  omega

/-- A file with a name of 2100 octets, in a directory that is then given one of 2000. -/
def longInputs : List VfsInput :=
  [⟨noVfsFaults, adminCred, 0, .write ([47, 97, 47] ++ List.replicate 2100 120) [1] true⟩,
    ⟨noVfsFaults, adminCred, 0, .rename [47, 97] (47 :: List.replicate 2000 98)⟩]

theorem stored_node_lost : ∃ fs, Run vfsStep anyAct (vfsNew 0 0#32) fs ∧
    ∃ n ∈ fs.nodes, vfsStat fs adminCred n.path = .error .ebadpath := by
  refine ⟨longInputs.foldl (fun fs i => (i.call.run i.flt i.cred i.now fs).2) (vfsNew 0 0#32),
    ((Run.refl _).tail (a := longInputs[0]) rfl trivial).tail (a := longInputs[1]) rfl trivial, ?_⟩
  decide +kernel

end Smolvfs
