import Smolvfs.VfsShape

/-!
# Renaming

`vfs_rename` on the nodes: with memory to spare it moves the node and all that is
below it (`moveNode`), which is a move in the tree (`Shaped.rename`), or it fails and
changes nothing (`vfsRename_settled`).
-/

namespace Smolvfs

open Octets Keyed Names PathTree

/-- Where a move takes the components of a path. -/
def moveKey (old new key : List Bytes) : List Bytes := if old <+: key then new ++ key.drop old.length else key

/-- What a rename makes of a node. -/
def moveNode (onorm nnorm : Bytes) (now : Int) (n : VfsNode) : VfsNode :=
  if n.path = onorm then { n with path := nnorm, mtime := now } else renameBelow onorm nnorm now n

/-- A node at its new path. -/
def touchNode (now : Int) (q : List Bytes) (n : VfsNode) : VfsNode := { n with path := pathOf q, mtime := now }

theorem renameLoop_noFaults (onorm nnorm : Bytes) (now : Int) (nodes : List VfsNode) :
    renameLoop noVfsFaults onorm nnorm now nodes = (true, nodes.map (renameBelow onorm nnorm now)) := by
  induction nodes with
  | nil => rfl
  | cons n nodes ih =>
    unfold renameLoop
    rw [if_neg (by simp [noVfsFaults]), ih]
    rfl

section
variable {nodes : List VfsNode} (h : Shaped nodes) (old new : List Bytes) (hold : Components old)
  (hnew : Components new)
  (hone : old ≠ []) (hnne : new ≠ []) (now : Int)

include h hold hone hnne

/-- A moved node is the one at its new path, with what it had. -/
theorem moveNode_eq {n : VfsNode} (hn : n ∈ nodes) :
    moveNode (pathOf old) (pathOf new) now n =
      if old <+: nodeKey n then touchNode now (moveKey old new (nodeKey n)) n else n := by
  obtain ⟨hk, -, hp⟩ := (h.normal n hn).key
  have hb := below_nodeKey h old hold hone hn
  unfold moveNode
  by_cases heq : n.path = pathOf old
  · have hkey := (NormalPath.path_eq_iff (h.normal n hn) old hold).mp heq
    rw [if_pos heq, if_pos (by rw [hkey])]
    unfold touchNode moveKey
    rw [hkey, if_pos (List.prefix_refl _), List.drop_length, List.append_nil]
  · have hne : old ≠ nodeKey n := fun hkey => heq (hkey ▸ hp)
    rw [if_neg heq]
    unfold renameBelow
    by_cases hpre : old <+: nodeKey n
    · have hbelow : Below old (nodeKey n) := (below_iff _ _).mpr ⟨hpre, hne⟩
      rw [if_pos (hb.mpr hbelow), if_pos hpre]
      obtain ⟨rest, hrest⟩ := hpre
      have hpath : n.path = pathOf old ++ join 47 rest := by
        rw [hp, ← hrest, pathOf_ne_nil _ (by simp [hone]), pathOf_ne_nil old hone, join_append]
      unfold touchNode moveKey
      rw [if_pos ⟨rest, hrest⟩, ← hrest, List.drop_left, hpath, List.drop_left,
        pathOf_ne_nil (new ++ rest) (by simp [hnne]), join_append, pathOf_ne_nil new hnne]
    · rw [if_neg hpre, if_neg (fun hbelow => hpre (hb.mp hbelow).starts)]

include hnew

omit hold hone in
theorem components_moveKey {n : VfsNode} (hn : n ∈ nodes) :
    Components (moveKey old new (nodeKey n)) ∧ moveKey old new (nodeKey n) ≠ [] := by
  obtain ⟨hk, hne, -⟩ := (h.normal n hn).key
  unfold moveKey
  split
  · next hpre =>
    obtain ⟨rest, hrest⟩ := hpre
    rw [← hrest] at hk
    rw [← hrest, List.drop_left]
    exact ⟨(components_append new rest).mpr ⟨hnew, ((components_append old rest).mp hk).2⟩, by simp [hnne]⟩
  · exact ⟨hk, hne⟩

theorem nodeKey_moveNode {n : VfsNode} (hn : n ∈ nodes) :
    nodeKey (moveNode (pathOf old) (pathOf new) now n) = moveKey old new (nodeKey n) := by
  rw [moveNode_eq h old new hold hone hnne now hn]
  split
  · exact nodeKey_pathOf _ _ (components_moveKey h old new hnew hnne hn).1 rfl
  · next hpre =>
    unfold moveKey
    rw [if_neg hpre]

end

section
variable {nodes : List VfsNode} (h : Shaped nodes) (old init : List Bytes) (c : Bytes) (hold : Components old)
  (hnew : Components (init ++ [c])) (hone : old ≠ []) (hout : ¬ old <+: init ++ [c])
  (hfree : treeOf nodes (init ++ [c]) = none) (now : Int)

include h hfree

theorem not_at_new {n : VfsNode} (hn : n ∈ nodes) : ¬ init ++ [c] <+: nodeKey n := by
  intro hpre
  have hnone := h.closed.none_from (by simp) hfree hpre
  exact (treeOf_eq_none _ _).mp hnone n hn rfl

/-- Two paths that are stored do not become one. -/
theorem moveKey_inj {n m : VfsNode} (hn : n ∈ nodes) (hm : m ∈ nodes)
    (heq : moveKey old (init ++ [c]) (nodeKey n) = moveKey old (init ++ [c]) (nodeKey m)) : nodeKey n = nodeKey m := by
  have hn' := not_at_new h init c hfree hn
  have hm' := not_at_new h init c hfree hm
  unfold moveKey at heq
  by_cases h1 : old <+: nodeKey n
  · rw [if_pos h1] at heq
    by_cases h2 : old <+: nodeKey m
    · rw [if_pos h2] at heq
      obtain ⟨r1, hr1⟩ := h1
      obtain ⟨r2, hr2⟩ := h2
      rw [← hr1, ← hr2, List.drop_left, List.drop_left] at heq
      rw [← hr1, ← hr2, List.append_cancel_left heq]
    · rw [if_neg h2] at heq
      exact absurd ⟨_, heq⟩ hm'
  · rw [if_neg h1] at heq
    by_cases h2 : old <+: nodeKey m
    · rw [if_pos h2] at heq
      exact absurd ⟨_, heq.symm⟩ hn'
    · rwa [if_neg h2] at heq

include hold hnew hone hout

/-- **A rename is a move in the tree.** -/
theorem Shaped.rename (hdir : DirAt isDirNode (treeOf nodes) init) :
    Shaped (nodes.map (moveNode (pathOf old) (pathOf (init ++ [c])) now)) ∧
      treeOf (nodes.map (moveNode (pathOf old) (pathOf (init ++ [c])) now)) =
        move old (init ++ [c]) (touchNode now) (treeOf nodes) := by
  have hnne : init ++ [c] ≠ [] := by simp
  have hkey : ∀ n ∈ nodes, nodeKey (moveNode (pathOf old) (pathOf (init ++ [c])) now n) =
      moveKey old (init ++ [c]) (nodeKey n) :=
    fun n hn => nodeKey_moveNode h old _ hold hnew hone hnne now hn
  have hdistinct : Distinct nodeKey (nodes.map (moveNode (pathOf old) (pathOf (init ++ [c])) now)) := by
    unfold Distinct
    rw [List.map_map]
    refine List.Nodup.map_on ?_ h.distinct.of_map
    intro n hn m hm heq
    simp only [Function.comp_apply] at heq
    rw [hkey n hn, hkey m hm] at heq
    exact h.distinct.unique hn hm (moveKey_inj h old init c hfree hn hm heq)
  have htree : treeOf (nodes.map (moveNode (pathOf old) (pathOf (init ++ [c])) now)) =
      move old (init ++ [c]) (touchNode now) (treeOf nodes) := by
    ext q m
    rw [show treeOf _ q = some m ↔ _ from lookup_eq_some hdistinct q m, List.mem_map]
    unfold move
    by_cases hin : init ++ [c] <+: q
    · rw [if_pos hin, Option.map_eq_some_iff]
      obtain ⟨rest, rfl⟩ := hin
      rw [List.drop_left]
      constructor
      · rintro ⟨⟨n, hn, rfl⟩, hq⟩
        rw [hkey n hn] at hq
        have hpre : old <+: nodeKey n := by
          by_contra hno
          unfold moveKey at hq
          rw [if_neg hno] at hq
          exact not_at_new h init c hfree hn ⟨rest, hq.symm⟩
        refine ⟨n, (h.treeOf_eq_some _ n).mpr ⟨hn, ?_⟩, ?_⟩
        · obtain ⟨r, hr⟩ := hpre
          unfold moveKey at hq
          rw [if_pos ⟨r, hr⟩, ← hr, List.drop_left] at hq
          rw [← hr, List.append_cancel_left hq]
        · rw [moveNode_eq h old _ hold hone hnne now hn, if_pos hpre, hq]
      · rintro ⟨n, hn, rfl⟩
        obtain ⟨hmem, hk⟩ := (h.treeOf_eq_some _ n).mp hn
        have hpre : old <+: nodeKey n := ⟨rest, hk.symm⟩
        have hmove : moveKey old (init ++ [c]) (nodeKey n) = init ++ [c] ++ rest := by
          unfold moveKey
          rw [if_pos hpre, hk, List.drop_left]
        have heq : moveNode (pathOf old) (pathOf (init ++ [c])) now n = touchNode now (init ++ [c] ++ rest) n := by
          rw [moveNode_eq h old _ hold hone hnne now hmem, if_pos hpre, hmove]
        exact ⟨⟨n, hmem, heq⟩, by rw [← heq, hkey n hmem, hmove]⟩
    · rw [if_neg hin]
      by_cases hold' : old <+: q
      · rw [if_pos hold']
        constructor
        · rintro ⟨⟨n, hn, rfl⟩, hq⟩
          rw [hkey n hn] at hq
          unfold moveKey at hq
          split at hq
          · exact absurd ⟨_, hq⟩ hin
          · next hno => exact absurd (hq ▸ hold') hno
        · rintro ⟨⟩
      · rw [if_neg hold', h.treeOf_eq_some]
        have hstay : ∀ n ∈ nodes, ¬ old <+: nodeKey n → moveNode (pathOf old) (pathOf (init ++ [c])) now n = n := by
          intro n hn hno
          rw [moveNode_eq h old _ hold hone hnne now hn, if_neg hno]
        constructor
        · rintro ⟨⟨n, hn, rfl⟩, hq⟩
          have hq' := hq
          rw [hkey n hn] at hq
          have hno : ¬ old <+: nodeKey n := by
            intro hpre
            unfold moveKey at hq
            rw [if_pos hpre] at hq
            exact hin ⟨_, hq⟩
          rw [hstay n hn hno] at hq' ⊢
          exact ⟨hn, hq'⟩
        · rintro ⟨hm, rfl⟩
          exact ⟨⟨m, hm, hstay m hm hold'⟩, rfl⟩
  refine ⟨⟨?_, hdistinct, ?_⟩, htree⟩
  · intro m hm
    obtain ⟨n, hn, rfl⟩ := List.mem_map.mp hm
    obtain ⟨hc, hne⟩ := components_moveKey h old _ hnew hnne hn
    rw [moveNode_eq h old _ hold hone hnne now hn]
    split
    · exact ⟨_, hc, hne, rfl⟩
    · exact h.normal n hn
  · rw [htree]
    exact h.closed.move old init c (touchNode now) (fun _ _ hd => hd) hone hout hdir

end

/-! ## The destination of a rename -/

/-- What is taken out of the way of a rename. -/
theorem clearDst_cases (fs : Vfs) (nnorm : Bytes) :
    (nodeAt fs nnorm = none ∧ clearDst fs nnorm = fs) ∨
      ∃ dst, nodeAt fs nnorm = some dst ∧ fs.nodes.Perm (dst :: (clearDst fs nnorm).nodes) := by
  cases hat : nodeAt fs nnorm with
  | none =>
    refine .inl ⟨rfl, ?_⟩
    unfold clearDst
    rw [findNode_none hat]
  | some dst =>
    obtain ⟨j, hfind, hj⟩ := findNode_some hat
    refine .inr ⟨dst, rfl, ?_⟩
    unfold clearDst
    rw [hfind]
    exact removeNode_perm hj

theorem clearDst_subset (fs : Vfs) (nnorm : Bytes) : (clearDst fs nnorm).nodes ⊆ fs.nodes := by
  rcases clearDst_cases fs nnorm with ⟨-, heq⟩ | ⟨dst, -, hp⟩
  · rw [heq]
    exact List.Subset.refl _
  · exact fun n hn => hp.mem_iff.mpr (List.mem_cons_of_mem _ hn)

/-! ## What a rename leaves of a node -/

/-- A node and what the loop of `vfs_rename` makes of it, whether it comes to it or not. -/
def CarriedBelow (onorm nnorm : Bytes) (now : Int) (n n' : VfsNode) :
    Prop := n' = n ∨ n' = renameBelow onorm nnorm now n

theorem renameLoop_carries (flt : VfsFaults) (onorm nnorm : Bytes) (now : Int) (nodes : List VfsNode) :
    List.Forall₂ (CarriedBelow onorm nnorm now) nodes (renameLoop flt onorm nnorm now nodes).2 := by
  induction nodes with
  | nil => exact .nil
  | cons n nodes ih =>
    unfold renameLoop
    split
    · exact List.forall₂_same.mpr fun _ _ => .inl rfl
    · exact .cons (.inr rfl) ih

/-- What a rename of `src` leaves of a node: all but its time and its path, and the path is another only for
what is moved and for what is below a directory that is. -/
structure SameBut (src : VfsNode) (onorm nnorm : Bytes) (n n' : VfsNode) : Prop where
  type : n'.type = n.type
  mode : n'.mode = n.mode
  owner : n'.owner = n.owner
  data : n'.data = n.data
  path : n'.path = n.path ∨ (n = src ∧ n'.path = nnorm) ∨
    (src.type = .dir ∧ pathBelow onorm n.path = true ∧ n'.path = nnorm ++ n.path.drop onorm.length)

theorem SameBut.refl (src : VfsNode) (onorm nnorm : Bytes) (n : VfsNode) : SameBut src onorm nnorm n n :=
  ⟨rfl, rfl, rfl, rfl, .inl rfl⟩

theorem renameNode_nodes (flt : VfsFaults) (fs : Vfs) (i : Nat) (src : VfsNode) (onorm nnorm : Bytes) (now : Int)
    (hi : fs.nodes[i]? = some src) :
    List.Forall₂ (SameBut src onorm nnorm) fs.nodes (renameNode flt fs i src onorm nnorm now).2.nodes := by
  have hloop : List.Forall₂ (SameBut src onorm nnorm) fs.nodes
      (if src.type = .dir then renameLoop flt onorm nnorm now fs.nodes else (true, fs.nodes)).2 := by
    split
    · next hd =>
      refine (renameLoop_carries flt onorm nnorm now fs.nodes).imp fun n n' h => ?_
      rcases h with rfl | rfl
      · exact SameBut.refl _ _ _ _
      · unfold renameBelow
        split
        · next hb => exact ⟨rfl, rfl, rfl, rfl, .inr (.inr ⟨hd, hb, rfl⟩)⟩
        · exact SameBut.refl _ _ _ _
    · exact List.forall₂_same.mpr fun _ _ => SameBut.refl _ _ _ _
  unfold renameNode
  generalize (if src.type = .dir then renameLoop flt onorm nnorm now fs.nodes else (true, fs.nodes)) = r at hloop ⊢
  simp only []
  split
  · exact hloop
  · split
    · exact hloop
    · exact forall₂_set hloop i src { src with path := nnorm, mtime := now } hi
        ⟨rfl, rfl, rfl, rfl, .inr (.inl ⟨rfl, rfl⟩)⟩

/-! ## The rename itself -/

/-- The loop over what is below and the change of the node itself are one map. -/
theorem set_renameBelow {nodes : List VfsNode} (h : Shaped nodes) {i : Nat} {src : VfsNode} (hi : nodes[i]? = some src)
    (nnorm : Bytes) (now : Int) :
    (nodes.map (renameBelow src.path nnorm now)).set i { src with path := nnorm, mtime := now } =
      nodes.map (moveNode src.path nnorm now) := by
  obtain ⟨hlt, hget⟩ := List.getElem?_eq_some_iff.mp hi
  refine List.ext_getElem? fun j => ?_
  by_cases hij : i = j
  · subst hij
    rw [List.getElem?_set_self (by simpa using hlt), List.getElem?_map, hi]
    show some _ = some (moveNode src.path nnorm now src)
    unfold moveNode
    rw [if_pos rfl]
  · rw [List.getElem?_set_ne hij, List.getElem?_map, List.getElem?_map]
    cases hj : nodes[j]? with
    | none => rfl
    | some n =>
      show some (renameBelow src.path nnorm now n) = some (moveNode src.path nnorm now n)
      have hne : n.path ≠ src.path := by
        intro hp
        have hkeys : (nodes.map nodeKey)[i]? = (nodes.map nodeKey)[j]? := by
          rw [List.getElem?_map, List.getElem?_map, hi, hj]
          show some (parts 47 src.path) = some (parts 47 n.path)
          rw [hp]
        exact hij ((List.getElem?_inj (by simpa using hlt) h.distinct).mp hkeys)
      unfold moveNode
      rw [if_neg hne]

/-- A parent that is there is no error. -/
theorem checkParent_of_dirAt {fs : Vfs} (h : Shaped fs.nodes) (comps : List Bytes) (c : Bytes)
    (hc : Components (comps ++ [c])) (hlen : (pathOf (comps ++ [c])).length ≤ VFS_PATH_MAX)
    (hdir : DirAt isDirNode (treeOf fs.nodes) comps) : checkParent fs (pathOf (comps ++ [c])) = .ok := by
  obtain ⟨hinit, hlast⟩ := (components_append comps [c]).mp hc
  unfold checkParent
  rw [pathParent_concat comps c (hlast.names c (by simp)) hlen]
  simp only []
  rcases hdir with rfl | ⟨d, hd, hdd⟩
  · rfl
  · split
    · rfl
    · rw [nodeAt_pathOf fs h.normal comps hinit, hd]
      show (if d.type ≠ .dir then _ else _) = _
      rw [if_neg (not_not.mpr (show d.type = .dir from hdd))]

/-- **A node moved is a move in the tree.** -/
theorem renameNode_shaped {fs : Vfs} (h : Shaped fs.nodes) {i : Nat} {src : VfsNode} (hi : fs.nodes[i]? = some src)
    (nnorm : Bytes) (now : Int) :
    renameNode noVfsFaults fs i src src.path nnorm now =
      (.ok, { fs with nodes := fs.nodes.map (moveNode src.path nnorm now) }) := by
  have hmem := List.mem_of_getElem? hi
  obtain ⟨hk, hne, hp⟩ := (h.normal src hmem).key
  unfold renameNode
  rw [renameLoop_noFaults]
  by_cases hd : src.type = .dir
  · simp only [if_pos hd, noVfsFaults, Bool.false_eq_true, Bool.true_eq_false, if_false]
    rw [set_renameBelow h hi]
  · -- nothing is below a file, so the loop would have found nothing
    have hsame : fs.nodes.map (renameBelow src.path nnorm now) = fs.nodes := by
      rw [← List.map_id fs.nodes, List.map_map]
      refine List.map_congr_left fun n hn => ?_
      have hb := below_nodeKey h (nodeKey src) hk hne hn
      rw [← hp] at hb
      show renameBelow src.path _ now n = n
      unfold renameBelow
      rw [if_neg fun hbelow => h.file_leaf hmem hd n hn (hb.mp hbelow)]
    simp only [if_neg hd, noVfsFaults, Bool.false_eq_true, Bool.true_eq_false, if_false]
    rw [← set_renameBelow h hi, hsame]

/-- A destination that may be replaced is taken out, and nothing else. -/
theorem Shaped.dstCleared {fs : Vfs} (h : Shaped fs.nodes) (new : List Bytes) (hnew : Components new) (hne : new ≠ [])
    (hempty : ∀ dst, nodeAt fs (pathOf new) = some dst → ¬ (dst.type = .dir ∧ countChildren fs (pathOf new) > 0)) :
    Shaped (clearDst fs (pathOf new)).nodes ∧
      treeOf (clearDst fs (pathOf new)).nodes = restrict (fun q => decide (q ≠ new)) (treeOf fs.nodes) := by
  unfold clearDst
  cases hdst : nodeAt fs (pathOf new) with
  | none =>
    rw [findNode_none hdst]
    rw [nodeAt_pathOf fs h.normal new hnew] at hdst
    refine ⟨h, ?_⟩
    ext q n
    unfold restrict
    by_cases hq : q = new
    · subst hq
      simp [hdst]
    · simp [hq]
  | some dst =>
    obtain ⟨j, hfind, hj⟩ := findNode_some hdst
    obtain ⟨hmem, hp⟩ := nodeAt_some hdst
    have hkey := nodeKey_pathOf dst new hnew hp
    rw [hfind]
    rw [← hkey]
    refine h.removeLeaf hj (h.delete_leaf hmem ?_)
    rw [hp]
    exact hempty dst hdst

/-- What the checks of a rename have established of the tree. -/
structure RenameTree (fs : Vfs) (src : VfsNode) (init : List Bytes) (c : Bytes) : Prop where
  mem : src ∈ fs.nodes
  new : Components (init ++ [c])
  short : (pathOf (init ++ [c])).length < VFS_PATH_MAX
  differ : nodeKey src ≠ init ++ [c]
  out : ¬ nodeKey src <+: init ++ [c]
  cleared : Shaped (clearDst fs (pathOf (init ++ [c]))).nodes
  tree : treeOf (clearDst fs (pathOf (init ++ [c]))).nodes = restrict (fun q => decide (q ≠ init ++ [c]))
    (treeOf fs.nodes)
  source : nodeAt (clearDst fs (pathOf (init ++ [c]))) src.path = some src

section
variable {fs : Vfs} (h : Shaped fs.nodes) {cred : VfsCred} {oldPath newPath onorm nnorm : Bytes} {src : VfsNode}
  (hgo : RenameGoes fs cred oldPath newPath onorm nnorm src)

include h hgo

theorem RenameGoes.tree : onorm = src.path ∧ ∃ init c, nnorm = pathOf (init ++ [c]) ∧ RenameTree fs src init c := by
  obtain ⟨init, c, hnew, rfl, hlen⟩ := normalize_concat hgo.new hgo.newRoot
  obtain ⟨hmem, rfl⟩ := nodeAt_some hgo.source
  obtain ⟨hk, hne, hp⟩ := (h.normal src hmem).key
  have hkey : nodeKey src ≠ init ++ [c] := fun heq => hgo.differ (hp.trans (congrArg pathOf heq))
  have hnot : ¬ nodeKey src <+: init ++ [c] := by
    intro hpre
    have hout := hgo.notBelow
    rw [hp, ← Bool.not_eq_true, pathBelow_pathOf _ _ hk.names hnew.names hne] at hout
    exact hout ((below_iff _ _).mpr ⟨hpre, hkey⟩)
  obtain ⟨hs, htree⟩ := h.dstCleared (init ++ [c]) hnew (by simp) hgo.replaceable
  -- the node to be moved is still there
  have hsrc : nodeAt (clearDst fs (pathOf (init ++ [c]))) src.path = some src := by
    rw [hp, nodeAt_pathOf _ hs.normal _ hk, htree]
    refine (if_pos (by simpa using hkey)).trans ?_
    exact (h.treeOf_eq_some _ src).mpr ⟨hmem, rfl⟩
  exact ⟨rfl, init, c, rfl, hmem, hnew, hlen, hkey, hnot, hs, htree, hsrc⟩

end

section
variable {fs : Vfs} {src : VfsNode} {init : List Bytes} {c : Bytes} (h : Shaped fs.nodes)
  (ht : RenameTree fs src init c)

include ht

theorem RenameTree.keeps (q : List Bytes) (hq : q ≠ init ++ [c]) :
    treeOf (clearDst fs (pathOf (init ++ [c]))).nodes q = treeOf fs.nodes q := by
  rw [ht.tree]
  exact if_pos (by simpa using hq)

include h

/-- A destination that was there had its parent, which is still there. -/
theorem RenameTree.orphan (hparent : checkParent (clearDst fs (pathOf (init ++ [c]))) (pathOf (init ++ [c])) ≠ .ok) :
    clearDst fs (pathOf (init ++ [c])) = fs := by
  cases hdst : nodeAt fs (pathOf (init ++ [c])) with
  | none =>
    unfold clearDst
    rw [findNode_none hdst]
  | some dst =>
    rw [nodeAt_pathOf fs h.normal _ ht.new] at hdst
    refine absurd (checkParent_of_dirAt ht.cleared init c ht.new (Nat.le_of_lt ht.short) ?_) hparent
    rcases h.closed.parent init c dst hdst with hnil | ⟨d, hd, hdd⟩
    · exact .inl hnil
    · exact .inr ⟨d, by rw [ht.keeps init (by simp), hd], hdd⟩

omit h in
/-- The tree after the move. -/
theorem RenameTree.moved (hparent : checkParent (clearDst fs (pathOf (init ++ [c]))) (pathOf (init ++ [c])) = .ok)
    (now : Int) :
    Shaped ((clearDst fs (pathOf (init ++ [c]))).nodes.map (moveNode src.path (pathOf (init ++ [c])) now)) := by
  obtain ⟨hmem, -⟩ := nodeAt_some ht.source
  obtain ⟨hk, hne, hp⟩ := (ht.cleared.normal src hmem).key
  have hdir := checkParent_ok ht.cleared init c ht.new (Nat.le_of_lt ht.short) hparent
  have hfree : treeOf (clearDst fs (pathOf (init ++ [c]))).nodes (init ++ [c]) = none := by
    rw [ht.tree]
    exact if_neg (by simp)
  rw [hp]
  exact (ht.cleared.rename (nodeKey src) init c hk ht.new hne ht.out hfree now hdir).1

end

theorem vfsRename_settled {fs : Vfs} (h : Shaped fs.nodes) (cred : VfsCred) (oldPath newPath : Bytes) (now : Int) :
    Settled fs (vfsRename noVfsFaults fs cred oldPath newPath now) := by
  have hstep := vfsRename_step noVfsFaults fs cred oldPath newPath now
  generalize vfsRename noVfsFaults fs cred oldPath newPath now = r at hstep ⊢
  cases hstep with
  | refused hrc => exact .error hrc
  | same hold hnew => exact .same h
  | lost hgo hfind =>
    obtain ⟨rfl, init, c, rfl, ht⟩ := hgo.tree h
    rw [ht.source] at hfind
    cases hfind
  | orphan hgo hparent =>
    obtain ⟨rfl, init, c, rfl, ht⟩ := hgo.tree h
    exact .inr ⟨hparent, ht.orphan h hparent⟩
  | moved hgo hfind hi hparent =>
    obtain ⟨rfl, init, c, rfl, ht⟩ := hgo.tree h
    obtain rfl := Option.some.inj (ht.source.symm.trans hfind)
    rw [renameNode_shaped ht.cleared hi]
    exact .inl ⟨rfl, ht.moved hparent now⟩

end Smolvfs
