import Smolvfs.VfsInv

/-!
# What a delete and a rename leave alone

`vfs_delete_recursive` and `vfs_rename` swap nodes about in the array.  The nodes that
are left are the ones that were there, less a subtree or with one moved, and the usage
counter goes down by the sizes of the files that are gone, in 64 bits (`InStep`).

Main results: `vfs_delete_recursive_exact`, for any nodes with distinct paths in normal
form, and `vfs_rename_exact`.
-/

namespace Smolvfs

open Octets Keyed Names PathTree

/-! ## The counter -/

/-- The counter has followed the nodes, and nothing else has changed. -/
structure InStep (fs fs' : Vfs) : Prop where
  usage : (fs'.usage + fileBytes fs.nodes) % 2 ^ 64 = (fs.usage + fileBytes fs'.nodes) % 2 ^ 64
  fits : fs.usage < 2 ^ 64 → fs'.usage < 2 ^ 64
  quota : fs'.quota = fs.quota
  umask : fs'.umask = fs.umask

theorem InStep.refl (fs : Vfs) : InStep fs fs := ⟨rfl, id, rfl, rfl⟩

theorem InStep.trans {fs fs1 fs2 : Vfs} (h : InStep fs fs1) (h' : InStep fs1 fs2) : InStep fs fs2 where
  usage := by
    have h1 := h.usage
    have h2 := h'.usage
    omega
  fits hfits := h'.fits (h.fits hfits)
  quota := h'.quota.trans h.quota
  umask := h'.umask.trans h.umask

/-- A node taken out takes its size off the counter. -/
theorem removeNode_inStep (fs : Vfs) (i : Nat) : InStep fs (removeNode fs i) := by
  cases hi : fs.nodes[i]? with
  | none =>
    unfold removeNode
    rw [hi]
    exact InStep.refl fs
  | some n =>
    have hbytes : fileBytes fs.nodes = fileSize n + fileBytes (removeNode fs i).nodes := by
      rw [fileBytes_perm (removeNode_perm hi)]
      rfl
    have husage : (removeNode fs i).usage = if n.type = .file then sub64 fs.usage n.size else fs.usage := by
      unfold removeNode
      rw [hi]
    unfold fileSize at hbytes
    refine ⟨?_, fun hfits => ?_, ?_, ?_⟩
    · rw [husage, hbytes]
      unfold sub64
      split <;> omega
    · rw [husage]
      unfold sub64
      split <;> omega
    · unfold removeNode
      rw [hi]
    · unfold removeNode
      rw [hi]

theorem deleteBelow_inStep (norm : Bytes) (i : Nat) (fs : Vfs) : InStep fs (deleteBelow norm i fs) := by
  induction i generalizing fs with
  | zero => exact InStep.refl fs
  | succ i ih =>
    unfold deleteBelow
    split
    · exact (removeNode_inStep fs i).trans (ih _)
    · exact ih fs

/-- What is kept and what is not make up the whole. -/
theorem fileBytes_split (nodes : List VfsNode) (p : VfsNode → Bool) :
    fileBytes (nodes.filter p) + fileBytes (nodes.filter fun n => !p n) = fileBytes nodes := by
  rw [← fileBytes_append]
  exact fileBytes_perm (List.filter_append_perm p nodes)

/-! ## Deleting -/

/-- The state without the nodes that are `gone`. -/
structure Without (fs fs' : Vfs) (gone : VfsNode → Bool) : Prop where
  /-- The other nodes are all there, as they were. -/
  nodes : fs'.nodes.Perm (fs.nodes.filter fun n => !gone n)
  /-- The counter is less by their sizes, -/
  usage : (fs'.usage + fileBytes (fs.nodes.filter gone)) % 2 ^ 64 = fs.usage % 2 ^ 64
  /-- which is a difference of numbers where it had counted them. -/
  dropped : fs.usage < 2 ^ 64 → fileBytes (fs.nodes.filter gone) ≤ fs.usage →
    fs'.usage = fs.usage - fileBytes (fs.nodes.filter gone)
  quota : fs'.quota = fs.quota
  umask : fs'.umask = fs.umask

theorem InStep.without {fs fs' : Vfs} (h : InStep fs fs') (gone : VfsNode → Bool)
    (hnodes : fs'.nodes.Perm (fs.nodes.filter fun n => !gone n)) : Without fs fs' gone := by
  have hsplit := fileBytes_split fs.nodes gone
  have hkept := fileBytes_perm hnodes
  have husage : (fs'.usage + fileBytes (fs.nodes.filter gone)) % 2 ^ 64 = fs.usage % 2 ^ 64 := by
    have h1 := h.usage
    omega
  refine ⟨hnodes, husage, fun hfits hle => ?_, h.quota, h.umask⟩
  have hfits' := h.fits hfits
  omega

theorem Without.congr {fs fs' : Vfs} {gone gone' : VfsNode → Bool} (h : Without fs fs' gone)
    (heq : ∀ n ∈ fs.nodes, gone n = gone' n) : Without fs fs' gone' := by
  have hgone : fs.nodes.filter gone = fs.nodes.filter gone' := List.filter_congr heq
  have hkept : (fs.nodes.filter fun n => !gone n) = fs.nodes.filter fun n => !gone' n :=
    List.filter_congr fun n hn => by rw [heq n hn]
  obtain ⟨h1, h2, h3, h4, h5⟩ := h
  rw [hgone] at h2 h3
  rw [hkept] at h1
  exact ⟨h1, h2, h3, h4, h5⟩

/-- The node of a path, and all below it. -/
def subtree (n m : VfsNode) : Bool := decide (nodeKey n <+: nodeKey m)

/-- What a recursive delete of a node takes: of a directory the subtree, of a file that alone. -/
def deleted (n m : VfsNode) : Bool := if n.type = .dir then subtree n m else decide (nodeKey m = nodeKey n)

section
variable {fs : Vfs} (hnormal : ∀ n ∈ fs.nodes, NormalPath n.path) (hdistinct : (fs.nodes.map VfsNode.path).Nodup)

include hnormal hdistinct

theorem distinct_nodeKey : Distinct nodeKey fs.nodes := by
  unfold Distinct
  refine List.Nodup.map_on (fun n hn m hm heq => ?_) hdistinct.of_map
  have hpath : n.path = m.path := by rw [(hnormal n hn).key.2.2, (hnormal m hm).key.2.2, heq]
  exact List.inj_on_of_nodup_map hdistinct hn hm hpath

omit hdistinct in
theorem below_path {n m : VfsNode} (hn : n ∈ fs.nodes) (hm : m ∈ fs.nodes) :
    pathBelow n.path m.path = true ↔ nodeKey n <+: nodeKey m ∧ nodeKey n ≠ nodeKey m := by
  obtain ⟨hkn, hne, hpn⟩ := (hnormal n hn).key
  obtain ⟨hkm, -, hpm⟩ := (hnormal m hm).key
  rw [hpn, hpm, pathBelow_pathOf _ _ hkn.names hkm.names hne, ← below_iff]
  rfl

/-- After the loop the directory is still there, and is taken out too. -/
theorem cleared_without {n : VfsNode} (hn : n ∈ fs.nodes) {i : Nat}
    (hfind : findNode (deleteBelow n.path fs.nodes.length fs) n.path = some i) :
    Without fs (removeNode (deleteBelow n.path fs.nodes.length fs) i) (subtree n) := by
  have hstep := deleteBelow_inStep n.path fs.nodes.length fs
  have hperm := deleteBelow_all n.path fs
  generalize deleteBelow n.path fs.nodes.length fs = fs1 at hfind hstep hperm ⊢
  have hkeys : Distinct nodeKey fs1.nodes := ((distinct_nodeKey hnormal hdistinct).filter _).perm hperm.symm
  -- what is found is the directory itself
  obtain ⟨m, hm⟩ : ∃ m, fs1.nodes[i]? = some m := by
    unfold findNode at hfind
    obtain ⟨hlt, -⟩ := List.findIdx?_eq_some_iff_getElem.mp hfind
    exact ⟨_, List.getElem?_eq_getElem hlt⟩
  have hpath : m.path = n.path := by
    unfold findNode at hfind
    obtain ⟨hlt, hp, -⟩ := List.findIdx?_eq_some_iff_getElem.mp hfind
    rw [List.getElem?_eq_getElem hlt] at hm
    obtain rfl := Option.some.inj hm
    simpa using hp
  have hkey : nodeKey m = nodeKey n := by
    unfold nodeKey
    rw [hpath]
  refine (hstep.trans (removeNode_inStep fs1 i)).without _ ?_
  have hremove := swapRemove_perm_filter hkeys hm
  rw [← removeNode_nodes hm] at hremove
  refine hremove.trans ((hperm.filter _).trans (List.Perm.of_eq ?_))
  rw [List.filter_filter]
  refine List.filter_congr fun x hx => ?_
  have hb := below_path hnormal hn hx
  unfold subtree
  rw [hkey, Bool.eq_iff_iff, Bool.and_eq_true, Bool.not_eq_true', Bool.not_eq_true', decide_eq_true_iff,
    decide_eq_false_iff_not, ← Bool.not_eq_true, hb]
  constructor
  · rintro ⟨hne, hnot⟩ hpre
    exact hnot ⟨hpre, Ne.symm hne⟩
  · intro hnot
    exact ⟨fun heq => hnot (heq ▸ List.prefix_refl _), fun hbelow => hnot hbelow.1⟩

end

/-- What a delete that has gone through leaves. -/
structure DeletedExactly (fs fs' : Vfs) (n : VfsNode) : Prop where
  left : Without fs fs' (deleted n)
  /-- Where only directories have something below them it is the subtree. -/
  tree : (∀ m ∈ fs.nodes, ∀ k ∈ fs.nodes, pathBelow m.path k.path = true → m.type = .dir) →
    Without fs fs' (subtree n)

/-- A delete that goes through has found its node, and comes to the end that is for its type. -/
theorem vfsDeleteRecursive_found {fs : Vfs} {cred : VfsCred} {path : Bytes}
    (hok : (vfsDeleteRecursive fs cred path).1 = .ok) :
    ∃ i n, fs.nodes[i]? = some n ∧ vfsNormalize VFS_PATH_MAX path = .ok n.path ∧
      ((n.type ≠ .dir ∧ vfsDeleteRecursive fs cred path = (.ok, removeNode fs i)) ∨
        (n.type = .dir ∧ findNode (deleteBelow n.path fs.nodes.length fs) n.path = none ∧
          vfsDeleteRecursive fs cred path = (.ok, deleteBelow n.path fs.nodes.length fs)) ∨
        (n.type = .dir ∧ ∃ j, findNode (deleteBelow n.path fs.nodes.length fs) n.path = some j ∧
          vfsDeleteRecursive fs cred path = (.ok, removeNode (deleteBelow n.path fs.nodes.length fs) j))) := by
  unfold vfsDeleteRecursive at hok ⊢
  split at hok
  · next rc hnorm => exact absurd hok (normalize_error hnorm)
  · next norm hnorm =>
    rw [hnorm]
    dsimp only
    split at hok
    · cases hok
    · next hroot =>
      rw [if_neg hroot]
      split at hok
      · next i n hfind hnode =>
        obtain ⟨j, hfind', hi⟩ := findNode_some hnode
        obtain rfl := Option.some.inj (hfind.symm.trans hfind')
        obtain ⟨hn, rfl⟩ := nodeAt_some hnode
        split at hok
        · cases hok
        · next hperm =>
          rw [if_neg hperm]
          refine ⟨i, n, hi, rfl, ?_⟩
          by_cases hd : n.type = .dir
          · rw [if_neg (not_not.mpr hd)]
            cases hgone : findNode (deleteBelow n.path fs.nodes.length fs) n.path with
            | none => exact Or.inr (Or.inl ⟨hd, rfl, rfl⟩)
            | some k => exact Or.inr (Or.inr ⟨hd, k, rfl, rfl⟩)
          · rw [if_pos hd]
            exact Or.inl ⟨hd, rfl⟩
      · cases hok

/-- **Recursive delete removes exactly the subtree**, whatever order the nodes are in. -/
theorem vfs_delete_recursive_exact (fs : Vfs) (hnormal : ∀ n ∈ fs.nodes, NormalPath n.path)
    (hdistinct : (fs.nodes.map VfsNode.path).Nodup) (cred : VfsCred) (path : Bytes)
    (hok : (vfsDeleteRecursive fs cred path).1 = .ok) :
    ∃ n ∈ fs.nodes, vfsNormalize VFS_PATH_MAX path = .ok n.path ∧
      DeletedExactly fs (vfsDeleteRecursive fs cred path).2 n := by
  obtain ⟨i, n, hi, hnorm, hcases⟩ := vfsDeleteRecursive_found hok
  have hn := List.mem_of_getElem? hi
  refine ⟨n, hn, hnorm, ?_⟩
  rcases hcases with ⟨hfile, hrun⟩ | ⟨hd, hgone, -⟩ | ⟨hd, j, hfind, hrun⟩
  · -- a file is taken alone
    have hperm := swapRemove_perm_filter (distinct_nodeKey hnormal hdistinct) hi
    rw [← removeNode_nodes hi] at hperm
    have hleft : Without fs (removeNode fs i) (deleted n) := by
      refine (removeNode_inStep fs i).without _ (hperm.trans (List.Perm.of_eq (List.filter_congr fun m _ => ?_)))
      unfold deleted
      rw [if_neg hfile, decide_not]
    rw [hrun]
    refine ⟨hleft, fun hleaves => hleft.congr fun m hm => ?_⟩
    unfold deleted subtree
    rw [if_neg hfile, decide_eq_decide]
    constructor
    · intro hkey
      rw [hkey]
    · intro hpre
      by_contra hne
      exact hfile (hleaves n hn m hm ((below_path hnormal hn hm).mpr ⟨hpre, Ne.symm hne⟩))
  · -- the loop does not take the directory
    exfalso
    have hself : pathBelow n.path n.path = false := by
      rw [← Bool.not_eq_true, below_path hnormal hn hn]
      exact fun h => h.2 rfl
    have hmem : n ∈ (deleteBelow n.path fs.nodes.length fs).nodes :=
      (deleteBelow_all n.path fs).mem_iff.mpr (List.mem_filter.mpr ⟨hn, by rw [hself]; rfl⟩)
    unfold findNode at hgone
    simpa using List.findIdx?_eq_none_iff.mp hgone n hmem
  · have hall := cleared_without hnormal hdistinct hn hfind
    rw [hrun]
    refine ⟨hall.congr fun m _ => ?_, fun _ => hall⟩
    unfold deleted
    rw [if_pos hd]

/-- A directory with a file in it, and a file whose path begins like the directory's. -/
def nearbyFs : Vfs where
  nodes := [⟨lit ['/', 'a'] |>.bytes, .dir, 0o777#32, 0#32, 0, 0, []⟩,
    ⟨lit ['/', 'a', 'b'] |>.bytes, .file, 0o666#32, 0#32, 0, 0, [1, 2]⟩,
    ⟨lit ['/', 'a', '/', 'x'] |>.bytes, .file, 0o666#32, 0#32, 0, 0, [1, 2, 3]⟩]
  usage := 5
  quota := 0
  umask := 0#32

theorem nearbyFs_normal : ∀ n ∈ nearbyFs.nodes, NormalPath n.path := by
  intro n hn
  simp only [nearbyFs, List.mem_cons, List.not_mem_nil, or_false] at hn
  rcases hn with rfl | rfl | rfl
  · exact ⟨[[97]], ⟨by decide⟩, by decide, by decide⟩
  · exact ⟨[[97, 98]], ⟨by decide⟩, by decide, by decide⟩
  · exact ⟨[[97], [120]], ⟨by decide⟩, by decide, by decide⟩

theorem vfs_delete_recursive_nearby :
    ∃ n ∈ nearbyFs.nodes, vfsNormalize VFS_PATH_MAX (lit ['/', 'a', '/']).bytes = .ok n.path ∧
      DeletedExactly nearbyFs (vfsDeleteRecursive nearbyFs adminCred (lit ['/', 'a', '/']).bytes).2 n :=
  vfs_delete_recursive_exact nearbyFs nearbyFs_normal (by decide) adminCred (lit ['/', 'a', '/']).bytes (by decide)

/-- A file with another below it. -/
def strayFs : Vfs where
  nodes := [⟨lit ['/', 'b'] |>.bytes, .file, 0o666#32, 0#32, 0, 0, []⟩,
    ⟨lit ['/', 'b', '/', 'x'] |>.bytes, .file, 0o666#32, 0#32, 0, 0, []⟩]
  usage := 0
  quota := 0
  umask := 0#32

/-- What is below a file stays when the file is removed. -/
theorem vfs_delete_recursive_stray :
    (∀ n ∈ strayFs.nodes, NormalPath n.path) ∧ (strayFs.nodes.map VfsNode.path).Nodup ∧
      (vfsDeleteRecursive strayFs adminCred (lit ['/', 'b']).bytes).1 = .ok ∧
      ∀ n ∈ strayFs.nodes, vfsNormalize VFS_PATH_MAX (lit ['/', 'b']).bytes = .ok n.path →
        ¬ Without strayFs (vfsDeleteRecursive strayFs adminCred (lit ['/', 'b']).bytes).2 (subtree n) := by
  refine ⟨?_, by decide, by decide, ?_⟩
  · intro n hn
    simp only [strayFs, List.mem_cons, List.not_mem_nil, or_false] at hn
    rcases hn with rfl | rfl
    · exact ⟨[[98]], ⟨by decide⟩, by decide, by decide⟩
    · exact ⟨[[98], [120]], ⟨by decide⟩, by decide, by decide⟩
  · intro n hn hnorm hwithout
    have hlen := hwithout.nodes.length_eq
    simp only [strayFs, List.mem_cons, List.not_mem_nil, or_false] at hn
    rcases hn with rfl | rfl
    · revert hlen
      decide
    · revert hnorm
      decide

/-! ## Renaming -/

/-- What is at the old path or below it stands at the new one, and has the time of the rename. -/
def renamed (old new : List Bytes) (now : Int) (n : VfsNode) : VfsNode :=
  if old <+: nodeKey n then { n with path := pathOf (new ++ (nodeKey n).drop old.length), mtime := now } else n

/-- The state after a rename between the paths of two lists of components. -/
structure RenamedExactly (fs fs' : Vfs) (old new : List Bytes) (now : Int) : Prop where
  source : ∃ n ∈ fs.nodes, nodeKey n = old
  /-- Without the node that was at the new path, and with one subtree moved. -/
  nodes : fs'.nodes.Perm ((fs.nodes.filter fun n => decide (nodeKey n ≠ new)).map (renamed old new now))
  /-- The counter is less by the size of the file replaced, -/
  usage : (fs'.usage + fileBytes (fs.nodes.filter fun n => decide (nodeKey n = new))) % 2 ^ 64 = fs.usage % 2 ^ 64
  /-- which is a difference of numbers where it had counted it. -/
  dropped : fs.usage < 2 ^ 64 → fileBytes (fs.nodes.filter fun n => decide (nodeKey n = new)) ≤ fs.usage →
    fs'.usage = fs.usage - fileBytes (fs.nodes.filter fun n => decide (nodeKey n = new))
  quota : fs'.quota = fs.quota
  umask : fs'.umask = fs.umask

/-- The destination of a rename is what is not there after it. -/
theorem clearDst_filter {fs : Vfs} (h : Shaped fs.nodes) (new : List Bytes) (hnew : Components new) :
    (clearDst fs (pathOf new)).nodes.Perm (fs.nodes.filter fun n => decide (nodeKey n ≠ new)) ∧
      InStep fs (clearDst fs (pathOf new)) := by
  unfold clearDst
  cases hat : nodeAt fs (pathOf new) with
  | none =>
    rw [findNode_none hat]
    rw [nodeAt_pathOf fs h.normal new hnew] at hat
    have hall : ∀ n ∈ fs.nodes, decide (nodeKey n ≠ new) = true := fun n hn =>
      decide_eq_true ((treeOf_eq_none _ _).mp hat n hn)
    dsimp only
    rw [List.filter_eq_self.mpr hall]
    exact ⟨List.Perm.refl _, InStep.refl fs⟩
  | some dst =>
    obtain ⟨j, hfind, hj⟩ := findNode_some hat
    obtain ⟨-, hp⟩ := nodeAt_some hat
    have hperm := swapRemove_perm_filter h.distinct hj
    rw [← removeNode_nodes hj, nodeKey_pathOf dst new hnew hp] at hperm
    rw [hfind]
    exact ⟨hperm, removeNode_inStep fs j⟩

theorem renamed_eq {nodes : List VfsNode} (h : Shaped nodes) (old new : List Bytes) (hold : Components old)
    (hone : old ≠ []) (hnne : new ≠ []) (now : Int) {n : VfsNode} (hn : n ∈ nodes) :
    moveNode (pathOf old) (pathOf new) now n = renamed old new now n := by
  rw [moveNode_eq h old new hold hone hnne now hn]
  unfold renamed touchNode moveKey
  by_cases hpre : old <+: nodeKey n
  · rw [if_pos hpre, if_pos hpre, if_pos hpre]
  · rw [if_neg hpre, if_neg hpre]

/-- **Rename moves exactly one subtree**, or changes nothing. -/
theorem vfs_rename_exact (fs : Vfs) (h : Shaped fs.nodes) (cred : VfsCred) (oldPath newPath : Bytes) (now : Int) :
    ((vfsRename noVfsFaults fs cred oldPath newPath now).1 = .ok →
      vfsNormalize VFS_PATH_MAX oldPath ≠ vfsNormalize VFS_PATH_MAX newPath →
      RenamedExactly fs (vfsRename noVfsFaults fs cred oldPath newPath now).2 (pathComponents oldPath)
        (pathComponents newPath) now) ∧
    ((vfsRename noVfsFaults fs cred oldPath newPath now).1 ≠ .ok →
      (vfsRename noVfsFaults fs cred oldPath newPath now).2 = fs) := by
  constructor
  · intro hok hdiffer
    have hstep := vfsRename_step noVfsFaults fs cred oldPath newPath now
    generalize vfsRename noVfsFaults fs cred oldPath newPath now = r at hstep hok ⊢
    cases hstep with
    | refused hrc => exact absurd hok hrc
    | same hold hnew => exact absurd (hold.trans hnew.symm) hdiffer
    | lost hgo hfind => cases hok
    | orphan hgo hparent => exact absurd hok hparent
    | @moved onorm nnorm src src' i hgo hfind hi hparent =>
      have hnewc : nnorm = pathOf (pathComponents newPath) := (vfsNormalize_ok _ _ _ hgo.new).1
      have holdc : onorm = pathOf (pathComponents oldPath) := (vfsNormalize_ok _ _ _ hgo.old).1
      obtain ⟨rfl, init, c, hcat, ht⟩ := hgo.tree h
      have hnew : pathComponents newPath = init ++ [c] :=
        pathOf_inj _ _ (pathComponents_ok newPath).names ht.new.names (hnewc.symm.trans hcat)
      have hold : nodeKey src = pathComponents oldPath := nodeKey_pathOf src _ (pathComponents_ok oldPath) holdc
      obtain ⟨hperm, hinstep⟩ := clearDst_filter h (init ++ [c]) ht.new
      subst hcat
      obtain rfl := Option.some.inj (ht.source.symm.trans hfind)
      have hone : pathComponents oldPath ≠ [] := hold ▸ (h.normal src ht.mem).key.2.1
      have hmap : (clearDst fs (pathOf (init ++ [c]))).nodes.map (moveNode src.path (pathOf (init ++ [c])) now) =
          (clearDst fs (pathOf (init ++ [c]))).nodes.map (renamed (pathComponents oldPath) (init ++ [c]) now) := by
        refine List.map_congr_left fun n hn => ?_
        rw [holdc]
        exact renamed_eq ht.cleared _ _ (pathComponents_ok oldPath) hone (by simp) now hn
      rw [renameNode_shaped ht.cleared hi, hnew]
      have hkeep : (fs.nodes.filter fun n => !decide (nodeKey n = init ++ [c])) =
          fs.nodes.filter fun n => decide (nodeKey n ≠ init ++ [c]) := List.filter_congr fun n _ => by rw [decide_not]
      have hwithout := hinstep.without (fun n => decide (nodeKey n = init ++ [c])) (hkeep ▸ hperm)
      refine ⟨⟨src, ht.mem, hold⟩, ?_, hwithout.usage, hwithout.dropped, hwithout.quota, hwithout.umask⟩
      show List.Perm (List.map (moveNode src.path (pathOf (init ++ [c])) now) _) _
      rw [hmap]
      exact hperm.map _
  · intro herr
    rcases vfsRename_settled h cred oldPath newPath now with ⟨hok, -⟩ | ⟨-, hsame⟩
    · exact absurd hok herr
    · exact hsame

theorem nearbyFs_shaped : Shaped nearbyFs.nodes := by
  have hdistinct : Distinct nodeKey nearbyFs.nodes := show (nearbyFs.nodes.map nodeKey).Nodup by decide
  refine ⟨nearbyFs_normal, hdistinct, by decide, fun p c n hn => ?_⟩
  obtain ⟨hmem, hkey⟩ := (lookup_eq_some hdistinct _ n).mp hn
  simp only [nearbyFs, List.mem_cons, List.not_mem_nil, or_false] at hmem
  rcases hmem with rfl | rfl | rfl
  · have hone : [] ++ [[97]] = p ++ [c] := hkey
    obtain ⟨rfl, -⟩ := List.append_inj' hone rfl
    exact .inl rfl
  · have hone : [] ++ [[97, 98]] = p ++ [c] := hkey
    obtain ⟨rfl, -⟩ := List.append_inj' hone rfl
    exact .inl rfl
  · have htwo : [[97]] ++ [[120]] = p ++ [c] := hkey
    obtain ⟨rfl, -⟩ := List.append_inj' htwo rfl
    exact .inr ⟨_, rfl, rfl⟩

theorem vfs_rename_nearby :
    RenamedExactly nearbyFs
      (vfsRename noVfsFaults nearbyFs adminCred (lit ['/', 'a']).bytes (lit ['/', 'a', 'b']).bytes 7).2
      (pathComponents (lit ['/', 'a']).bytes) (pathComponents (lit ['/', 'a', 'b']).bytes) 7 :=
  (vfs_rename_exact nearbyFs nearbyFs_shaped adminCred (lit ['/', 'a']).bytes (lit ['/', 'a', 'b']).bytes 7).1
    (by decide) (by decide)

end Smolvfs
