import Smolvfs.VfsTree

/-!
# What each call can do

`ensureParents_grown` and `ensureParents_ok` are what the loop over a path's parents
comes to.  Then the cases of every call that changes the filesystem, with whatever
allocations fail: it is refused and changes nothing, or its checks have passed and the
nodes change as said here (`vfsWrite_step`, `vfsMkdir_step`, `vfsDelete_step`,
`vfsDeleteRecursive_step`, `vfsRename_step`).
-/

namespace Smolvfs

open Octets Keyed Names PathTree

/-- A path that `vfs_normalize` gives, with its last component. -/
theorem normalize_concat {path norm : Bytes} (h : vfsNormalize VFS_PATH_MAX path = .ok norm) (hroot : norm ≠ [47]) :
    ∃ comps c, Components (comps ++ [c]) ∧ norm = pathOf (comps ++ [c]) ∧ norm.length < VFS_PATH_MAX := by
  obtain ⟨hp, hlen⟩ := vfsNormalize_ok _ path norm h
  obtain ⟨cs, hc, hne, hnorm⟩ := normalPath_of_normalize h hroot
  obtain ⟨init, last, hcat⟩ := (List.eq_nil_or_concat cs).resolve_left hne
  rw [List.concat_eq_append] at hcat
  exact ⟨init, last, hcat ▸ hc, by rw [hnorm, hcat], by omega⟩

/-! ## Parents -/

/-- The parents of a path are there, or their absence is an error and nothing has changed. -/
theorem checkParent_ok {fs : Vfs} (h : Shaped fs.nodes) (comps : List Bytes) (c : Bytes)
    (hc : Components (comps ++ [c]))
    (hlen : (pathOf (comps ++ [c])).length ≤ VFS_PATH_MAX) (hok : checkParent fs (pathOf (comps ++ [c])) = .ok) :
    DirAt isDirNode (treeOf fs.nodes) comps := by
  obtain ⟨hinit, hlast⟩ := (components_append comps [c]).mp hc
  unfold checkParent at hok
  rw [pathParent_concat comps c (hlast.names c (by simp)) hlen] at hok
  simp only [] at hok
  split at hok
  · next hroot => exact .inl ((pathOf_eq_root comps hinit.names).mp hroot)
  · rw [nodeAt_pathOf fs h.normal comps hinit] at hok
    split at hok
    · cases hok
    · next pn hpn =>
      split at hok
      · cases hok
      · next hd => exact .inr ⟨pn, hpn, not_not.mp hd⟩

/-- Directories that were appended above a path. -/
structure Grown (fs fs' : Vfs) (comps : List Bytes) (added : List VfsNode) : Prop where
  eq : fs' = { fs with nodes := fs.nodes ++ added }
  dirs : ∀ n ∈ added, n.type = .dir ∧ n.data = [] ∧ ∃ p, p ≠ [] ∧ p <+: comps ∧ n.path = pathOf p

theorem Grown.refl (fs : Vfs) (comps : List Bytes) : Grown fs fs comps [] := ⟨by simp, by simp⟩

/-- Whatever fails, the parents that are created are above the path. -/
theorem ensureParents_grown (flt : VfsFaults) (cred : VfsCred) (now : Int) (fuel : Nat) (fs : Vfs) (comps : List Bytes)
    (c : Bytes) (hc : Components (comps ++ [c])) (hlen : (pathOf (comps ++ [c])).length ≤ VFS_PATH_MAX) :
    ∃ added, Grown fs (ensureParents flt cred now fuel fs (pathOf (comps ++ [c]))).2 comps added := by
  induction fuel generalizing comps c with
  | zero => exact ⟨[], Grown.refl fs comps⟩
  | succ fuel ih =>
    obtain ⟨hinit, hlast⟩ := (components_append comps [c]).mp hc
    unfold ensureParents
    rw [pathParent_concat comps c (hlast.names c (by simp)) hlen]
    simp only []
    split
    · exact ⟨[], Grown.refl fs comps⟩
    · next hroot =>
      split
      · split
        · exact ⟨[], Grown.refl fs comps⟩
        · exact ⟨[], Grown.refl fs comps⟩
      · have hne : comps ≠ [] := fun hnil => hroot ((pathOf_eq_root comps hinit.names).mpr hnil)
        obtain ⟨init, last, hcat⟩ := (List.eq_nil_or_concat comps).resolve_left hne
        rw [List.concat_eq_append] at hcat
        subst hcat
        have hlen' : (pathOf (init ++ [last])).length ≤ VFS_PATH_MAX := by
          rw [pathOf_ne_nil _ (by simp), join_concat] at hlen
          rw [pathOf_ne_nil _ (by simp)]
          rw [List.length_append] at hlen
          omega
        obtain ⟨added, hg⟩ := ih init last hinit hlen'
        have hup : ∀ n ∈ added, n.type = .dir ∧ n.data = [] ∧
            ∃ p, p ≠ [] ∧ p <+: init ++ [last] ∧ n.path = pathOf p := by
          intro n hn
          obtain ⟨h1, h2, p, hp, hpre, hpath⟩ := hg.dirs n hn
          exact ⟨h1, h2, p, hp, hpre.trans (List.prefix_append _ _), hpath⟩
        split
        · next fs1 hrec =>
          rw [hrec] at hg
          split
          · exact ⟨added, hg.eq, hup⟩
          · next fs2 hadd =>
            unfold addNode at hadd
            split at hadd
            · cases hadd
            · obtain rfl := Option.some.inj hadd
              obtain rfl := hg.eq
              refine ⟨added ++
                [newNode (pathOf (init ++ [last])) .dir (VFS_MODE_DIR_DEFAULT &&& ~~~fs.umask) cred.uid []
                now], ?_, ?_⟩
              · show Vfs.mk _ _ _ _ = Vfs.mk _ _ _ _
                rw [List.append_assoc]
              · intro n hn
                rcases List.mem_append.mp hn with hn | hn
                · exact hup n hn
                · obtain rfl := List.mem_singleton.mp hn
                  exact ⟨rfl, rfl, _, by simp, List.prefix_refl _, rfl⟩
        · exact ⟨added, hg.eq, hup⟩

/-- **With memory to spare the parents are all there afterwards**, or nothing has changed. -/
theorem ensureParents_ok (cred : VfsCred) (now : Int) (fuel : Nat) (fs : Vfs) (h : Shaped fs.nodes) (comps : List Bytes)
    (c : Bytes) (hc : Components (comps ++ [c])) (hlen : (pathOf (comps ++ [c])).length ≤ VFS_PATH_MAX)
    (hfuel : comps.length < fuel) :
    let r := ensureParents noVfsFaults cred now fuel fs (pathOf (comps ++ [c]))
    (r.1 = .ok ∧ Shaped r.2.nodes ∧ DirAt isDirNode (treeOf r.2.nodes) comps) ∨ (r.1 ≠ .ok ∧ r.2 = fs) := by
  induction fuel generalizing comps c with
  | zero => omega
  | succ fuel ih =>
    obtain ⟨hinit, hlast⟩ := (components_append comps [c]).mp hc
    unfold ensureParents
    rw [pathParent_concat comps c (hlast.names c (by simp)) hlen]
    simp only []
    split
    · next hroot => exact .inl ⟨rfl, h, .inl ((pathOf_eq_root comps hinit.names).mp hroot)⟩
    · next hroot =>
      rw [nodeAt_pathOf fs h.normal comps hinit]
      split
      · next pn hpn =>
        split
        · exact .inr ⟨by simp, rfl⟩
        · next hd => exact .inl ⟨rfl, h, .inr ⟨pn, hpn, not_not.mp hd⟩⟩
      · next hnone =>
        have hne : comps ≠ [] := fun hnil => hroot ((pathOf_eq_root comps hinit.names).mpr hnil)
        obtain ⟨init, last, hcat⟩ := (List.eq_nil_or_concat comps).resolve_left hne
        rw [List.concat_eq_append] at hcat
        subst hcat
        have hlen' : (pathOf (init ++ [last])).length ≤ VFS_PATH_MAX := by
          rw [pathOf_ne_nil _ (by simp), join_concat] at hlen
          rw [pathOf_ne_nil _ (by simp)]
          rw [List.length_append] at hlen
          omega
        have hih := ih init last hinit hlen' (by simp at hfuel; omega)
        obtain ⟨added, hg⟩ := ensureParents_grown noVfsFaults cred now fuel fs init last hinit hlen'
        simp only [] at hih
        split
        · next fs1 hrec =>
          rw [hrec] at hih hg
          obtain ⟨-, hshape, hdir⟩ := hih.resolve_right (by simp)
          -- the new directory is not among the ones created above it
          have hfree : treeOf fs1.nodes (init ++ [last]) = none := by
            rw [treeOf_eq_none]
            intro n hn heq
            rw [show fs1 = _ from hg.eq] at hn
            rcases List.mem_append.mp hn with hn | hn
            · exact (treeOf_eq_none _ _).mp hnone n hn heq
            · obtain ⟨-, -, p, -, hpre, hpath⟩ := hg.dirs n hn
              have hcp : Components p := by
                obtain ⟨rest, rfl⟩ := hpre
                rw [List.append_assoc] at hinit
                exact ((components_append p _).mp hinit).1
              rw [nodeKey_pathOf n p hcp hpath] at heq
              have hle := hpre.length_le
              rw [heq] at hle
              simp at hle
          generalize hm : VFS_MODE_DIR_DEFAULT &&& ~~~fs1.umask = mode
          obtain ⟨hs, ht⟩ := hshape.append init last (newNode (pathOf (init ++ [last])) .dir mode cred.uid [] now)
            hinit rfl hfree hdir
          have hdirNode : isDirNode (newNode (pathOf (init ++ [last])) .dir mode cred.uid [] now) := rfl
          refine .inl ⟨rfl, hs, .inr ⟨_, ?_, hdirNode⟩⟩
          show treeOf (fs1.nodes ++ [newNode (pathOf (init ++ [last])) .dir mode cred.uid [] now]) _ = _
          rw [ht, Function.update_self]
        · next r hrec =>
          rcases hih with ⟨hok, -⟩ | ⟨hne', heq⟩
          · exact (hrec _ (Prod.ext hok rfl)).elim
          · exact .inr ⟨hne', heq⟩

theorem length_le_join (comps : List Bytes) : comps.length ≤ (join 47 comps).length := by
  induction comps with
  | nil => simp
  | cons c comps ih =>
    rw [join_cons, List.length_cons, List.length_cons, List.length_append]
    omega

theorem prepareParents_ok (fs : Vfs) (h : Shaped fs.nodes) (cred : VfsCred) (comps : List Bytes) (c : Bytes)
    (hc : Components (comps ++ [c])) (hlen : (pathOf (comps ++ [c])).length ≤ VFS_PATH_MAX) (createParents : Bool)
    (now : Int) :
    let r := prepareParents noVfsFaults fs cred (pathOf (comps ++ [c])) createParents now
    (r.1 = .ok ∧ Shaped r.2.nodes ∧ DirAt isDirNode (treeOf r.2.nodes) comps ∧ ∃ added, Grown fs r.2 comps added) ∨
      (r.1 ≠ .ok ∧ r.2 = fs) := by
  unfold prepareParents
  cases createParents with
  | true =>
    have hfuel : comps.length < (pathOf (comps ++ [c])).length := by
      have hle := length_le_join (comps ++ [c])
      rw [pathOf_ne_nil _ (by simp)]
      rw [List.length_append, List.length_singleton] at hle
      omega
    have hg := ensureParents_grown noVfsFaults cred now (pathOf (comps ++ [c])).length fs comps c hc hlen
    rcases ensureParents_ok cred now _ fs h comps c hc hlen hfuel with ⟨h1, h2, h3⟩ | herr
    · exact .inl ⟨h1, h2, h3, hg⟩
    · exact .inr herr
  | false =>
    by_cases hok : checkParent fs (pathOf (comps ++ [c])) = .ok
    · exact .inl ⟨hok, h, checkParent_ok h comps c hc hlen hok, [], Grown.refl fs comps⟩
    · exact .inr ⟨hok, rfl⟩

theorem prepareParents_grown (flt : VfsFaults) (fs : Vfs) (cred : VfsCred) (comps : List Bytes) (c : Bytes)
    (hc : Components (comps ++ [c])) (hlen : (pathOf (comps ++ [c])).length ≤ VFS_PATH_MAX) (createParents : Bool)
    (now : Int) :
    ∃ added, Grown fs (prepareParents flt fs cred (pathOf (comps ++ [c])) createParents now).2 comps added := by
  unfold prepareParents
  cases createParents with
  | true => exact ensureParents_grown flt cred now _ fs comps c hc hlen
  | false => exact ⟨[], Grown.refl fs comps⟩

section
variable {fs fs' : Vfs} {comps : List Bytes} {added : List VfsNode} (hg : Grown fs fs' comps added)

include hg

theorem Grown.getElem? {i : Nat} {n : VfsNode} (hi : fs.nodes[i]? = some n) : fs'.nodes[i]? = some n := by
  rw [hg.eq]
  show (fs.nodes ++ added)[i]? = some n
  rw [List.getElem?_append_left (List.getElem?_eq_some_iff.mp hi).1, hi]

/-- What is not above the path is as it was. -/
theorem Grown.free (hc : Components comps) (q : List Bytes) (hq : ¬ q <+: comps) (hfree : treeOf fs.nodes q = none) :
    treeOf fs'.nodes q = none := by
  rw [treeOf_eq_none] at hfree ⊢
  intro n hn heq
  rw [hg.eq] at hn
  rcases List.mem_append.mp hn with hn | hn
  · exact hfree n hn heq
  · obtain ⟨-, -, p, -, hpre, hpath⟩ := hg.dirs n hn
    have hcp : Components p := by
      obtain ⟨rest, rfl⟩ := hpre
      exact ((components_append p rest).mp hc).1
    rw [nodeKey_pathOf n p hcp hpath] at heq
    exact hq (heq ▸ hpre)

end

theorem not_prefix_init (comps : List Bytes) (c : Bytes) : ¬ comps ++ [c] <+: comps := by
  intro h
  have := h.length_le
  simp at this

/-! ## The cases -/

/-- The path of a call, in normal form; it is not the root's. -/
structure Placed (path : Bytes) (comps : List Bytes) (c : Bytes) : Prop where
  all : Components (comps ++ [c])
  norm : vfsNormalize VFS_PATH_MAX path = .ok (pathOf (comps ++ [c]))

theorem Placed.short {path : Bytes} {comps : List Bytes} {c : Bytes} (h : Placed path comps c) :
    (pathOf (comps ++ [c])).length < VFS_PATH_MAX := by
  obtain ⟨-, hlen⟩ := vfsNormalize_ok _ path _ h.norm
  omega

theorem placed_of_norm {path norm : Bytes} (h : vfsNormalize VFS_PATH_MAX path = .ok norm) (hroot : norm ≠ [47]) :
    ∃ comps c, norm = pathOf (comps ++ [c]) ∧ Placed path comps c := by
  obtain ⟨comps, c, hc, rfl, -⟩ := normalize_concat h hroot
  exact ⟨comps, c, rfl, hc, h⟩

theorem Placed.grown {path : Bytes} {comps : List Bytes} {c : Bytes} (hp : Placed path comps c) {flt : VfsFaults}
    {fs fs1 : Vfs} {cred : VfsCred} {createParents : Bool} {now : Int} {rc : VfsStatus}
    (hrun : prepareParents flt fs cred (pathOf (comps ++ [c])) createParents now = (rc, fs1)) :
    ∃ added, Grown fs fs1 comps added := by
  have hg := prepareParents_grown flt fs cred comps c hp.all (Nat.le_of_lt hp.short) createParents now
  rwa [hrun] at hg

section
variable (flt : VfsFaults) (fs : Vfs) (cred : VfsCred)

/-! ## Writing and creating -/

section
variable (path data : Bytes) (createParents : Bool) (now : Int)

/-- What `vfs_write` can do; `fs1` is the filesystem with the parents. -/
inductive WriteStep : VfsStatus × Vfs → Prop
  | refused {rc : VfsStatus} (h : rc ≠ .ok) : WriteStep (rc, fs)
  | parents {comps : List Bytes} {c : Bytes} (hp : Placed path comps c) {rc : VfsStatus} {fs1 : Vfs}
      (hrun : prepareParents flt fs cred (pathOf (comps ++ [c])) createParents now = (rc, fs1)) (h : rc ≠ .ok) :
    WriteStep (rc, fs1)
  | memory {comps : List Bytes} {c : Bytes} (hp : Placed path comps c) {fs1 : Vfs}
      (hrun : prepareParents flt fs cred (pathOf (comps ++ [c])) createParents now = (.ok, fs1))
      (hflt : flt (.copyData (pathOf (comps ++ [c]))) = true ∨ flt (.addNode (pathOf (comps ++ [c]))) = true) :
    WriteStep (.enomem, fs1)
  | replaced {comps : List Bytes} {c : Bytes} (hp : Placed path comps c) {fs1 : Vfs}
      (hrun : prepareParents flt fs cred (pathOf (comps ++ [c])) createParents now = (.ok, fs1)) {i : Nat} {n : VfsNode}
      (hi : fs.nodes[i]? = some n) (hnode : nodeAt fs (pathOf (comps ++ [c])) = some n) (hfile : n.type = .file)
      (hperm : checkPerm n cred PERM_W = true)
      (hquota : ¬ (fs.quota > 0 ∧ add64 (sub64 fs.usage n.size) data.length > fs.quota)) :
    WriteStep (.ok, { fs1 with
      nodes := fs1.nodes.set i { n with data := data, mtime := now }
      usage := add64 (sub64 fs1.usage n.size) data.length })
  | new {comps : List Bytes} {c : Bytes} (hp : Placed path comps c) {fs1 : Vfs}
      (hrun : prepareParents flt fs cred (pathOf (comps ++ [c])) createParents now = (.ok, fs1))
      (hnode : nodeAt fs (pathOf (comps ++ [c])) = none)
      (hquota : ¬ (fs.quota > 0 ∧ add64 (sub64 fs.usage 0) data.length > fs.quota)) :
    WriteStep (.ok, { fs1 with
      nodes := fs1.nodes ++ [newNode (pathOf (comps ++ [c])) .file (VFS_MODE_FILE_DEFAULT &&& ~~~fs1.umask) cred.uid
        data now]
      usage := add64 fs1.usage data.length })

theorem vfsWrite_step : WriteStep flt fs cred path data createParents now
    (vfsWrite flt fs cred path data createParents now) := by
  unfold vfsWrite
  split
  · next rc hnorm => exact .refused (normalize_error hnorm)
  · next norm hnorm =>
    split
    · exact .refused (by simp)
    · next hroot =>
      split
      · next hv => exact .refused hv
      · obtain ⟨comps, c, rfl, hp⟩ := placed_of_norm hnorm hroot
        simp only []
        split
        · exact .refused (by simp)
        · next hnotDir =>
          split
          · exact .refused (by simp)
          · next hperm =>
            split
            · exact .refused (by simp)
            · next hquota =>
              split
              · next fs1 hrun =>
                split
                · next hmem => exact .memory hp hrun (.inl hmem.2)
                · cases hnode : nodeAt fs (pathOf (comps ++ [c])) with
                  | some n =>
                    obtain ⟨i, hfind, hi⟩ := findNode_some hnode
                    rw [hnode] at hnotDir hperm hquota
                    rw [hfind]
                    have hfile : n.type = .file := by
                      cases ht : n.type with
                      | file => rfl
                      | dir => simp [ht] at hnotDir
                    exact .replaced hp hrun hi hnode hfile (by simpa using hperm) hquota
                  | none =>
                    rw [findNode_none hnode]
                    rw [hnode] at hquota
                    simp only []
                    split
                    · next hadd =>
                      refine .memory hp hrun (.inr ?_)
                      by_contra hno
                      unfold addNode at hadd
                      rw [if_neg hno] at hadd
                      cases hadd
                    · next fs2 hadd =>
                      unfold addNode at hadd
                      split at hadd
                      · cases hadd
                      · obtain rfl := Option.some.inj hadd
                        exact .new hp hrun hnode hquota
              · next r hrun =>
                refine .parents hp rfl fun hok => ?_
                exact hrun _ (Prod.ext hok rfl)

/-- What `vfs_mkdir` can do. -/
inductive MkdirStep : VfsStatus × Vfs → Prop
  | refused {rc : VfsStatus} (h : rc ≠ .ok) : MkdirStep (rc, fs)
  | root (hnorm : vfsNormalize VFS_PATH_MAX path = .ok [47]) : MkdirStep (.ok, fs)
  | there {comps : List Bytes} {c : Bytes} (hp : Placed path comps c) {n : VfsNode}
      (hnode : nodeAt fs (pathOf (comps ++ [c])) = some n) (hdir : n.type = .dir) : MkdirStep (.ok, fs)
  | parents {comps : List Bytes} {c : Bytes} (hp : Placed path comps c) {rc : VfsStatus} {fs1 : Vfs}
      (hrun : prepareParents flt fs cred (pathOf (comps ++ [c])) createParents now = (rc, fs1)) (h : rc ≠ .ok) :
    MkdirStep (rc, fs1)
  | memory {comps : List Bytes} {c : Bytes} (hp : Placed path comps c) {fs1 : Vfs}
      (hrun : prepareParents flt fs cred (pathOf (comps ++ [c])) createParents now = (.ok, fs1))
      (hflt : flt (.addNode (pathOf (comps ++ [c]))) = true) : MkdirStep (.enomem, fs1)
  | new {comps : List Bytes} {c : Bytes} (hp : Placed path comps c) {fs1 : Vfs}
      (hrun : prepareParents flt fs cred (pathOf (comps ++ [c])) createParents now = (.ok, fs1))
      (hnode : nodeAt fs (pathOf (comps ++ [c])) = none) :
    MkdirStep (.ok, { fs1 with
      nodes := fs1.nodes ++
        [newNode (pathOf (comps ++ [c])) .dir (VFS_MODE_DIR_DEFAULT &&& ~~~fs1.umask) cred.uid [] now] })

theorem vfsMkdir_step : MkdirStep flt fs cred path createParents now (vfsMkdir flt fs cred path createParents now) := by
  unfold vfsMkdir
  split
  · next rc hnorm => exact .refused (normalize_error hnorm)
  · next norm hnorm =>
    split
    · next hroot => exact .root (hroot ▸ hnorm)
    · next hroot =>
      split
      · next hv => exact .refused hv
      · obtain ⟨comps, c, rfl, hp⟩ := placed_of_norm hnorm hroot
        split
        · next n hnode =>
          split
          · next hdir => exact .there hp hnode hdir.1
          · exact .refused (by simp)
        · next hnode =>
          split
          · next fs1 hrun =>
            split
            · next hadd =>
              refine .memory hp hrun ?_
              by_contra hno
              unfold addNode at hadd
              rw [if_neg hno] at hadd
              cases hadd
            · next fs2 hadd =>
              unfold addNode at hadd
              split at hadd
              · cases hadd
              · obtain rfl := Option.some.inj hadd
                exact .new hp hrun hnode
          · next r hrun =>
            refine .parents hp rfl fun hok => ?_
            exact hrun _ (Prod.ext hok rfl)

/-- What `vfs_copy` can do: it is refused, or it is a `vfs_write`. -/
theorem vfsCopy_step (srcPath dstPath : Bytes) :
    (∃ rc, rc ≠ .ok ∧ vfsCopy flt fs cred srcPath dstPath createParents now = (rc, fs)) ∨
      ∃ src, (∃ snorm, vfsNormalize VFS_PATH_MAX srcPath = .ok snorm ∧ nodeAt fs snorm = some src) ∧
        vfsCopy flt fs cred srcPath dstPath createParents now =
          vfsWrite flt fs cred dstPath src.data createParents now := by
  unfold vfsCopy
  split
  · next rc hnorm => exact .inl ⟨rc, normalize_error hnorm, rfl⟩
  · next snorm hnorm =>
    split
    · exact .inl ⟨_, by simp, rfl⟩
    · next src hsrc =>
      split
      · exact .inl ⟨_, by simp, rfl⟩
      · split
        · exact .inl ⟨_, by simp, rfl⟩
        · split
          · exact .inl ⟨_, by simp, rfl⟩
          · exact .inr ⟨src, ⟨snorm, hnorm, hsrc⟩, rfl⟩

end

/-! ## Removing -/

variable {fs} in
theorem removeNode_nodes {i : Nat} {n : VfsNode} (hi : fs.nodes[i]? = some n) :
    (removeNode fs i).nodes = swapRemove fs.nodes i := by
  unfold removeNode
  rw [hi]

variable {fs} in
theorem removeNode_perm {i : Nat} {n : VfsNode} (hi : fs.nodes[i]? = some n) :
    fs.nodes.Perm (n :: (removeNode fs i).nodes) := by
  rw [removeNode_nodes hi]
  exact (perm_cons_eraseIdx fs.nodes i n hi).trans
    ((swapRemove_perm fs.nodes i (List.getElem?_eq_some_iff.mp hi).1).symm.cons n)

/-- What `vfs_delete` can do. -/
inductive DeleteStep : VfsStatus × Vfs → Prop
  | refused {rc : VfsStatus} (h : rc ≠ .ok) : DeleteStep (rc, fs)
  | removed {i : Nat} {n : VfsNode} (hi : fs.nodes[i]? = some n) (hperm : checkPerm n cred PERM_W = true)
      (hempty : ¬ (n.type = .dir ∧ countChildren fs n.path > 0)) : DeleteStep (.ok, removeNode fs i)

theorem vfsDelete_step (path : Bytes) : DeleteStep fs cred (vfsDelete fs cred path) := by
  unfold vfsDelete
  split
  · next rc hnorm => exact .refused (normalize_error hnorm)
  · split
    · exact .refused (by simp)
    · split
      · next i n hfind hnode =>
        obtain ⟨j, hfind', hi⟩ := findNode_some hnode
        obtain rfl := Option.some.inj (hfind.symm.trans hfind')
        obtain ⟨-, rfl⟩ := nodeAt_some hnode
        split
        · exact .refused (by simp)
        · next hperm =>
          split
          · exact .refused (by simp)
          · next hempty => exact .removed hi (by simpa using hperm) hempty
      · exact .refused (by simp)

/-- What `vfs_delete_recursive` can do; the directory is looked for again once what is below it is gone. -/
inductive DeleteRecursiveStep : VfsStatus × Vfs → Prop
  | refused {rc : VfsStatus} (h : rc ≠ .ok) : DeleteRecursiveStep (rc, fs)
  | removed {i : Nat} {n : VfsNode} (hi : fs.nodes[i]? = some n) (hperm : checkPerm n cred PERM_W = true)
      (hfile : n.type ≠ .dir) : DeleteRecursiveStep (.ok, removeNode fs i)
  | gone {n : VfsNode} (hn : n ∈ fs.nodes) (hperm : checkPerm n cred PERM_W = true)
      (hfind : findNode (deleteBelow n.path fs.nodes.length fs) n.path = none) :
    DeleteRecursiveStep (.ok, deleteBelow n.path fs.nodes.length fs)
  | cleared {n : VfsNode} (hn : n ∈ fs.nodes) (hperm : checkPerm n cred PERM_W = true) {i : Nat}
      (hfind : findNode (deleteBelow n.path fs.nodes.length fs) n.path = some i) :
    DeleteRecursiveStep (.ok, removeNode (deleteBelow n.path fs.nodes.length fs) i)

theorem vfsDeleteRecursive_step (path : Bytes) : DeleteRecursiveStep fs cred (vfsDeleteRecursive fs cred path) := by
  unfold vfsDeleteRecursive
  split
  · next rc hnorm => exact .refused (normalize_error hnorm)
  · split
    · exact .refused (by simp)
    · split
      · next i n hfind hnode =>
        obtain ⟨j, hfind', hi⟩ := findNode_some hnode
        obtain rfl := Option.some.inj (hfind.symm.trans hfind')
        obtain ⟨hn, rfl⟩ := nodeAt_some hnode
        split
        · exact .refused (by simp)
        · next hperm =>
          split
          · next hfile => exact .removed hi (by simpa using hperm) hfile
          · simp only []
            split
            · next hgone => exact .gone hn (by simpa using hperm) hgone
            · next k hk => exact .cleared hn (by simpa using hperm) hk
      · exact .refused (by simp)

/-! ## Renaming -/

/-- The checks of `vfs_rename` up to the removal of the destination have passed. -/
structure RenameGoes (oldPath newPath onorm nnorm : Bytes) (src : VfsNode) : Prop where
  old : vfsNormalize VFS_PATH_MAX oldPath = .ok onorm
  new : vfsNormalize VFS_PATH_MAX newPath = .ok nnorm
  oldRoot : onorm ≠ [47]
  newRoot : nnorm ≠ [47]
  valid : validatePathComponents nnorm = .ok
  differ : onorm ≠ nnorm
  notBelow : pathBelow onorm nnorm = false
  source : nodeAt fs onorm = some src
  writable : checkPerm src cred PERM_W = true
  replaceable : ∀ dst, nodeAt fs nnorm = some dst → ¬ (dst.type = .dir ∧ countChildren fs nnorm > 0)

variable (oldPath newPath : Bytes) (now : Int)

variable {fs cred oldPath newPath} in
/-- From there on the destination is out of the way. -/
theorem RenameGoes.eq {onorm nnorm : Bytes} {src : VfsNode} (hgo : RenameGoes fs cred oldPath newPath onorm nnorm src) :
    vfsRename flt fs cred oldPath newPath now =
      match findNode (clearDst fs nnorm) onorm, nodeAt (clearDst fs nnorm) onorm with
      | some i, some src =>
        if checkParent (clearDst fs nnorm) nnorm ≠ .ok then
          (checkParent (clearDst fs nnorm) nnorm, clearDst fs nnorm)
        else renameNode flt (clearDst fs nnorm) i src onorm nnorm now
      | _, _ => (.err, clearDst fs nnorm) := by
  have hdst : ¬ ((nodeAt fs nnorm).any fun dst => dst.type = .dir ∧ countChildren fs nnorm > 0) = true := by
    cases hat : nodeAt fs nnorm with
    | none => simp
    | some dst => simpa using hgo.replaceable dst hat
  unfold vfsRename
  rw [hgo.old, hgo.new]
  simp only [hgo.source]
  refine (if_neg (by simp [hgo.oldRoot, hgo.newRoot])).trans ?_
  refine (if_neg (by simp [hgo.valid])).trans ?_
  refine (if_neg hgo.differ).trans ?_
  refine (if_neg (by simp [hgo.notBelow])).trans ?_
  refine (if_neg (by simp [hgo.writable])).trans ?_
  exact (if_neg hdst).trans rfl

/-- What `vfs_rename` can do; the destination is removed before its parent is looked for. -/
inductive RenameStep : VfsStatus × Vfs → Prop
  | refused {rc : VfsStatus} (h : rc ≠ .ok) : RenameStep (rc, fs)
  | same {norm : Bytes} (hold : vfsNormalize VFS_PATH_MAX oldPath = .ok norm)
      (hnew : vfsNormalize VFS_PATH_MAX newPath = .ok norm) : RenameStep (.ok, fs)
  | lost {onorm nnorm : Bytes} {src : VfsNode} (hgo : RenameGoes fs cred oldPath newPath onorm nnorm src)
      (hfind : nodeAt (clearDst fs nnorm) onorm = none) : RenameStep (.err, clearDst fs nnorm)
  | orphan {onorm nnorm : Bytes} {src : VfsNode} (hgo : RenameGoes fs cred oldPath newPath onorm nnorm src)
      (hparent : checkParent (clearDst fs nnorm) nnorm ≠ .ok) :
    RenameStep (checkParent (clearDst fs nnorm) nnorm, clearDst fs nnorm)
  | moved {onorm nnorm : Bytes} {src src' : VfsNode} {i : Nat}
      (hgo : RenameGoes fs cred oldPath newPath onorm nnorm src)
      (hfind : nodeAt (clearDst fs nnorm) onorm = some src') (hi : (clearDst fs nnorm).nodes[i]? = some src')
      (hparent : checkParent (clearDst fs nnorm) nnorm = .ok) :
    RenameStep (renameNode flt (clearDst fs nnorm) i src' onorm nnorm now)

theorem vfsRename_step : RenameStep flt fs cred oldPath newPath now (vfsRename flt fs cred oldPath newPath now) := by
  unfold vfsRename
  split
  · next rc hnorm => exact .refused (normalize_error hnorm)
  · next onorm hold =>
    split
    · next rc hnorm => exact .refused (normalize_error hnorm)
    · next nnorm hnew =>
      split
      · exact .refused (by simp)
      · next hroots =>
        rw [not_or] at hroots
        split
        · next hv => exact .refused hv
        · next hvalid =>
          split
          · next heq => exact .same hold (heq ▸ hnew)
          · next hdiff =>
            split
            · exact .refused (by simp)
            · next hbelow =>
              split
              · exact .refused (by simp)
              · next src hsrc =>
                split
                · exact .refused (by simp)
                · next hperm =>
                  split
                  · exact .refused (by simp)
                  · next hdst =>
                    have hgo : RenameGoes fs cred oldPath newPath onorm nnorm src := by
                      refine ⟨hold, hnew, hroots.1, hroots.2, by simpa using hvalid, hdiff, by simpa using hbelow, hsrc,
                        by simpa using hperm, fun dst hat hdir => hdst ?_⟩
                      rw [hat]
                      simpa using hdir
                    simp only []
                    cases hfind : nodeAt (clearDst fs nnorm) onorm with
                    | none =>
                      rw [findNode_none hfind]
                      exact .lost hgo hfind
                    | some src' =>
                      obtain ⟨i, hidx, hi⟩ := findNode_some hfind
                      rw [hidx]
                      simp only []
                      split
                      · next hparent => exact .orphan hgo hparent
                      · next hparent => exact .moved hgo hfind hi (not_not.mp hparent)

end

end Smolvfs
