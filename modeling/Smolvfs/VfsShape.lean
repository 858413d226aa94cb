import Smolvfs.VfsCalls

/-!
# The tree after a call

With memory to spare every call but the rename succeeds and leaves the nodes a tree,
or fails and changes nothing (`Settled`).

`deleteBelow_perm` is what the loop over the array comes to, whatever order it is in.
-/

namespace Smolvfs

open Octets Keyed Names PathTree

/-- A call that has succeeded and left a tree, or failed and changed nothing. -/
def Settled (fs : Vfs) (r : VfsStatus × Vfs) : Prop := (r.1 = .ok ∧ Shaped r.2.nodes) ∨ (r.1 ≠ .ok ∧ r.2 = fs)

theorem Settled.error {fs : Vfs} {rc : VfsStatus} (h : rc ≠ .ok) : Settled fs (rc, fs) := .inr ⟨h, rfl⟩

theorem Settled.same {fs : Vfs} (h : Shaped fs.nodes) : Settled fs (.ok, fs) := .inl ⟨rfl, h⟩

/-! ## Writing and creating -/

section
variable {fs : Vfs} (h : Shaped fs.nodes) (cred : VfsCred) (path : Bytes) (createParents : Bool) (now : Int)

include h

/-- The parents of a path with memory to spare. -/
theorem Placed.parents {comps : List Bytes} {c : Bytes} (hp : Placed path comps c) {rc : VfsStatus} {fs1 : Vfs}
    (hrun : prepareParents noVfsFaults fs cred (pathOf (comps ++ [c])) createParents now = (rc, fs1)) :
    (rc = .ok ∧ Shaped fs1.nodes ∧ DirAt isDirNode (treeOf fs1.nodes) comps ∧ ∃ added, Grown fs fs1 comps added) ∨
      (rc ≠ .ok ∧ fs1 = fs) := by
  have hprep := prepareParents_ok fs h cred comps c hp.all (Nat.le_of_lt hp.short) createParents now
  simp only [hrun] at hprep
  exact hprep

/-- A node appended where there was none, once the parents are there. -/
theorem Placed.append {comps : List Bytes} {c : Bytes} (hp : Placed path comps c) {fs1 : Vfs}
    (hrun : prepareParents noVfsFaults fs cred (pathOf (comps ++ [c])) createParents now = (.ok, fs1))
    (hnode : nodeAt fs (pathOf (comps ++ [c])) = none) (n : VfsNode) (hn : n.path = pathOf (comps ++ [c])) :
    Shaped (fs1.nodes ++ [n]) := by
  obtain ⟨-, hs, hdir, added, hg⟩ := (hp.parents h cred path createParents now hrun).resolve_right (by simp)
  rw [nodeAt_pathOf fs h.normal _ hp.all] at hnode
  have hfree := hg.free ((components_append comps [c]).mp hp.all).1 _ (not_prefix_init comps c) hnode
  exact (hs.append comps c n hp.all hn hfree hdir).1

theorem vfsWrite_settled (data : Bytes) : Settled fs (vfsWrite noVfsFaults fs cred path data createParents now) := by
  have hstep := vfsWrite_step noVfsFaults fs cred path data createParents now
  generalize vfsWrite noVfsFaults fs cred path data createParents now = r at hstep ⊢
  cases hstep with
  | refused hrc => exact .error hrc
  | parents hp hrun hrc =>
    rcases hp.parents h cred path createParents now hrun with ⟨hok, -⟩ | herr
    · exact absurd hok hrc
    · exact .inr herr
  | memory hp hrun hflt => exact absurd hflt (by simp [noVfsFaults])
  | @replaced comps c hp fs1 hrun i n hi hnode hfile hperm hquota =>
    obtain ⟨-, hs, -, added, hg⟩ := (hp.parents h cred path createParents now hrun).resolve_right (by simp)
    exact .inl ⟨rfl, (hs.set i n { n with data := data, mtime := now } (hg.getElem? hi) rfl rfl).1⟩
  | new hp hrun hnode hquota => exact .inl ⟨rfl, hp.append h cred path createParents now hrun hnode _ rfl⟩

theorem vfsMkdir_settled : Settled fs (vfsMkdir noVfsFaults fs cred path createParents now) := by
  have hstep := vfsMkdir_step noVfsFaults fs cred path createParents now
  generalize vfsMkdir noVfsFaults fs cred path createParents now = r at hstep ⊢
  cases hstep with
  | refused hrc => exact .error hrc
  | root hnorm => exact .same h
  | there hp hnode hdir => exact .same h
  | parents hp hrun hrc =>
    rcases hp.parents h cred path createParents now hrun with ⟨hok, -⟩ | herr
    · exact absurd hok hrc
    · exact .inr herr
  | memory hp hrun hflt => exact absurd hflt (by simp [noVfsFaults])
  | new hp hrun hnode => exact .inl ⟨rfl, hp.append h cred path createParents now hrun hnode _ rfl⟩

theorem vfsCopy_settled (srcPath dstPath : Bytes) :
    Settled fs (vfsCopy noVfsFaults fs cred srcPath dstPath createParents now) := by
  rcases vfsCopy_step noVfsFaults fs cred createParents now srcPath dstPath with ⟨rc, hrc, heq⟩ | ⟨src, -, heq⟩
  · rw [heq]
    exact .error hrc
  · rw [heq]
    exact vfsWrite_settled h cred dstPath createParents now src.data

end

/-! ## Removing -/

theorem below_nodeKey {nodes : List VfsNode} (h : Shaped nodes) (comps : List Bytes) (hc : Components comps)
    (hne : comps ≠ []) {n : VfsNode} (hn : n ∈ nodes) :
    pathBelow (pathOf comps) n.path = true ↔ Below comps (nodeKey n) := by
  obtain ⟨hk, -, hp⟩ := (h.normal n hn).key
  rw [hp, pathBelow_pathOf comps _ hc.names hk.names hne, nodeKey_pathOf n _ hk hp]
  rfl

/-- A node with nothing below it removed. -/
theorem Shaped.removeLeaf {fs : Vfs} (h : Shaped fs.nodes) {i : Nat} {n : VfsNode} (hi : fs.nodes[i]? = some n)
    (hleaf : ∀ m ∈ fs.nodes, ¬ Below (nodeKey n) (nodeKey m)) :
    Shaped (removeNode fs i).nodes ∧
      treeOf (removeNode fs i).nodes = restrict (fun q => decide (q ≠ nodeKey n)) (treeOf fs.nodes) := by
  have hfilter := swapRemove_perm_filter h.distinct hi
  rw [← removeNode_nodes hi] at hfilter
  obtain ⟨hs, htree⟩ := h.filter (fun q => decide (q ≠ nodeKey n)) (by
    intro p m hm _ _
    rw [decide_eq_true_iff]
    rintro rfl
    obtain ⟨x, hx⟩ := Option.ne_none_iff_exists'.mp hm
    obtain ⟨hmem, hk⟩ := (h.treeOf_eq_some _ x).mp hx
    exact hleaf x hmem ⟨m, [], hk⟩)
  refine ⟨hs.perm hfilter.symm, ?_⟩
  rw [← htree]
  exact lookup_perm hs.distinct hfilter.symm

/-- A directory that counts no children has nothing below it. -/
theorem no_children {fs : Vfs} (h : Shaped fs.nodes) (comps : List Bytes) (hc : Components comps) (hne : comps ≠ [])
    (hcount : ¬ countChildren fs (pathOf comps) > 0) : ∀ m ∈ fs.nodes, ¬ Below comps (nodeKey m) := by
  intro m hm hb
  unfold countChildren at hcount
  have hroot : pathOf comps ≠ [47] := fun heq => hne ((pathOf_eq_root comps hc.names).mp heq)
  simp only [hroot, if_false] at hcount
  apply hcount
  rw [gt_iff_lt, List.countP_pos_iff]
  exact ⟨m, hm, (below_nodeKey h comps hc hne hm).mpr hb⟩

/-- A node that is no directory has nothing below it. -/
theorem Shaped.file_leaf {nodes : List VfsNode} (h : Shaped nodes) {n : VfsNode} (hn : n ∈ nodes)
    (hfile : ¬ n.type = .dir) :
    ∀ m ∈ nodes, ¬ Below (nodeKey n) (nodeKey m) := by
  intro m hm hb
  obtain ⟨-, hne, -⟩ := (h.normal n hn).key
  rcases h.closed.above ((h.treeOf_eq_some _ m).mpr ⟨hm, rfl⟩) hb with hnil | ⟨d, hd, hdd⟩
  · exact hne hnil
  · rw [(h.treeOf_eq_some _ n).mpr ⟨hn, rfl⟩] at hd
    obtain rfl := Option.some.inj hd
    exact hfile hdd

/-- **Going down the array, swapping removes exactly what is below**, whatever order it is in. -/
theorem deleteBelow_perm (norm : Bytes) (i : Nat) (fs : Vfs) (hi : i ≤ fs.nodes.length)
    (hdone : ∀ j n, i ≤ j → fs.nodes[j]? = some n → pathBelow norm n.path = false) :
    (deleteBelow norm i fs).nodes.Perm (fs.nodes.filter fun n => !pathBelow norm n.path) := by
  induction i generalizing fs with
  | zero =>
    have hall : ∀ n ∈ fs.nodes, (!pathBelow norm n.path) = true := by
      intro n hn
      obtain ⟨j, hj⟩ := List.mem_iff_getElem?.mp hn
      simp [hdone j n (Nat.zero_le _) hj]
    rw [List.filter_eq_self.mpr hall]
    exact List.Perm.refl _
  | succ i ih =>
    unfold deleteBelow
    obtain ⟨n, hn⟩ : ∃ n, fs.nodes[i]? = some n := ⟨_, List.getElem?_eq_getElem (by omega)⟩
    rw [hn, Option.any_some]
    by_cases hb : pathBelow norm n.path = true
    · rw [if_pos hb]
      have hperm := removeNode_perm hn
      have hlen := hperm.length_eq
      rw [List.length_cons] at hlen
      refine (ih (removeNode fs i) (by omega) ?_).trans ?_
      · intro j m hj hm
        rw [removeNode_nodes hn] at hm
        obtain ⟨k, hk, hmk⟩ := swapRemove_from fs.nodes i j m (by omega) hj hm
        exact hdone k m hk hmk
      · have hfull := hperm.filter fun m => !pathBelow norm m.path
        rw [List.filter_cons_of_neg (by simp [hb])] at hfull
        exact hfull.symm
    · rw [if_neg hb]
      refine ih fs (by omega) ?_
      intro j m hj hm
      by_cases heq : i = j
      · subst heq
        obtain rfl := Option.some.inj (hn.symm.trans hm)
        simpa using hb
      · exact hdone j m (by omega) hm

theorem deleteBelow_all (norm : Bytes) (fs : Vfs) :
    (deleteBelow norm fs.nodes.length fs).nodes.Perm (fs.nodes.filter fun n => !pathBelow norm n.path) := by
  refine deleteBelow_perm norm fs.nodes.length fs (Nat.le_refl _) fun j m hj hm => ?_
  rw [List.getElem?_eq_none hj] at hm
  cases hm

section
variable {fs : Vfs} (h : Shaped fs.nodes)

include h

/-- A directory removed with all below it. -/
theorem Shaped.removeTree {n : VfsNode} (hn : n ∈ fs.nodes) :
    ∃ i, findNode (deleteBelow n.path fs.nodes.length fs) n.path = some i ∧
      (deleteBelow n.path fs.nodes.length fs).nodes[i]? = some n ∧
      Shaped (removeNode (deleteBelow n.path fs.nodes.length fs) i).nodes := by
  obtain ⟨hk, hne, hpath⟩ := (h.normal n hn).key
  have hperm := deleteBelow_all n.path fs
  generalize deleteBelow n.path fs.nodes.length fs = fs1 at hperm ⊢
  have hdistinct : Distinct nodeKey fs1.nodes := (h.distinct.filter _).perm hperm.symm
  have hself : pathBelow n.path n.path = false := by
    rw [hpath]
    have hb := below_nodeKey h (nodeKey n) hk hne hn
    rw [← hpath] at hb ⊢
    simpa using mt hb.mp fun hbelow => hbelow.ne rfl
  have hmem : n ∈ fs1.nodes := hperm.mem_iff.mpr (List.mem_filter.mpr ⟨hn, by simp [hself]⟩)
  obtain ⟨m, hm⟩ : ∃ m, nodeAt fs1 n.path = some m := by
    cases hat : nodeAt fs1 n.path with
    | some m => exact ⟨m, rfl⟩
    | none =>
      unfold nodeAt at hat
      exact absurd (List.find?_eq_none.mp hat n hmem) (by simp)
  obtain ⟨i, hfind, hi⟩ := findNode_some hm
  obtain ⟨hmem', hmp⟩ := nodeAt_some hm
  obtain rfl : m = n := hdistinct.unique hmem' hmem (by unfold nodeKey; rw [hmp])
  refine ⟨i, hfind, hi, ?_⟩
  -- both removals together keep what is not at or below the path
  have hremove := swapRemove_perm_filter hdistinct hi
  rw [← removeNode_nodes hi] at hremove
  have hall : (removeNode fs1 i).nodes.Perm (fs.nodes.filter fun x => decide (¬ nodeKey m <+: nodeKey x)) := by
    refine hremove.trans ((hperm.filter _).trans ?_)
    rw [List.filter_filter]
    refine List.Perm.of_eq (List.filter_congr fun x hx => ?_)
    have hb := below_nodeKey h (nodeKey m) hk hne hx
    rw [← hpath, below_iff] at hb
    rw [Bool.eq_iff_iff, Bool.and_eq_true, Bool.not_eq_true', decide_eq_true_iff, decide_eq_true_iff,
      ← Bool.not_eq_true, hb]
    constructor
    · rintro ⟨hne', hnot⟩ hpre
      exact hnot ⟨hpre, Ne.symm hne'⟩
    · intro hnot
      exact ⟨fun heq => hnot (heq ▸ List.prefix_refl _), fun hb => hnot hb.1⟩
  obtain ⟨hs, -⟩ := h.filter (fun q => decide (¬ nodeKey m <+: q)) (by
    intro p x _ hkeep _
    rw [decide_eq_true_iff] at hkeep ⊢
    exact fun hpre => hkeep (hpre.trans (List.prefix_append _ _)))
  exact hs.perm hall.symm

/-- What `vfs_delete` removes has nothing below it. -/
theorem Shaped.delete_leaf {n : VfsNode} (hn : n ∈ fs.nodes)
    (hempty : ¬ (n.type = .dir ∧ countChildren fs n.path > 0)) :
    ∀ m ∈ fs.nodes, ¬ Below (nodeKey n) (nodeKey m) := by
  obtain ⟨hk, hne, hpath⟩ := (h.normal n hn).key
  by_cases hd : n.type = .dir
  · exact no_children h (nodeKey n) hk hne fun hpos => hempty ⟨hd, by rw [hpath]; exact hpos⟩
  · exact h.file_leaf hn hd

theorem vfsDelete_settled (cred : VfsCred) (path : Bytes) : Settled fs (vfsDelete fs cred path) := by
  have hstep := vfsDelete_step fs cred path
  generalize vfsDelete fs cred path = r at hstep ⊢
  cases hstep with
  | refused hrc => exact .error hrc
  | removed hi hperm hempty =>
    exact .inl ⟨rfl, (h.removeLeaf hi (h.delete_leaf (List.mem_of_getElem? hi) hempty)).1⟩

theorem vfsDeleteRecursive_settled (cred : VfsCred) (path : Bytes) : Settled fs (vfsDeleteRecursive fs cred path) := by
  have hstep := vfsDeleteRecursive_step fs cred path
  generalize vfsDeleteRecursive fs cred path = r at hstep ⊢
  cases hstep with
  | refused hrc => exact .error hrc
  | removed hi hperm hfile =>
    exact .inl ⟨rfl, (h.removeLeaf hi (h.file_leaf (List.mem_of_getElem? hi) hfile)).1⟩
  | gone hn hperm hfind =>
    obtain ⟨i, hi, -, -⟩ := h.removeTree hn
    rw [hfind] at hi
    cases hi
  | cleared hn hperm hfind =>
    obtain ⟨i, hi, -, hs⟩ := h.removeTree hn
    obtain rfl := Option.some.inj (hfind.symm.trans hi)
    exact .inl ⟨rfl, hs⟩

end

end Smolvfs
