import Smolvfs.Fsck
import Smolvfs.VfsTree

/-!
# Listing and reading

`vfs_list` and `vfs_read`, and what `vfs-snap.c` makes of a listing: `collect_child`
copies the nodes under a directory into an array, each path cut to its buffer.

In a filesystem in order the listing of a directory has the nodes one name below it
(`mem_listing`), and the name of a child whose path fits the buffer is the last
component of that path (`basenameOf_concat`).
-/

namespace Smolvfs

open Octets Keyed Names PathTree

/-! ## `vfs_list` -/

/-- The tests of `vfs_list`: the path is in the directory and has no further slash. -/
def directlyUnder (norm p : Bytes) : Bool :=
  if norm = [47] then p.head? == some 47 && decide (p.length ≥ 2) && !decide (47 ∈ p.drop 1)
  else pathBelow norm p && !decide (47 ∈ p.drop (norm.length + 1))

/-- The nodes of a directory in the order of the array. -/
def listing (fs : Vfs) (norm : Bytes) : List VfsNode := fs.nodes.filter fun n => directlyUnder norm n.path

/-- `vfs_list`, as far as its callback goes on: the nodes it is called for. -/
def vfsList (fs : Vfs) (cred : VfsCred) (dirpath : Bytes) : Except VfsStatus (List VfsNode) :=
  match vfsNormalize VFS_PATH_MAX dirpath with
  | .error rc => .error rc
  | .ok norm =>
    if norm = [47] then .ok (listing fs norm)
    else
      match nodeAt fs norm with
      | none => .error .enotfound
      | some dir =>
        if dir.type ≠ .dir then .error .enotdir
        else if checkPerm dir cred PERM_R = false then .error .eperm
        else .ok (listing fs norm)

/-- `vfs_read` -/
def vfsRead (fs : Vfs) (cred : VfsCred) (path : Bytes) : Except VfsStatus Bytes :=
  match vfsNormalize VFS_PATH_MAX path with
  | .error rc => .error rc
  | .ok norm =>
    match nodeAt fs norm with
    | none => .error .enotfound
    | some n =>
      if n.type = .dir then .error .eisdir
      else if checkPerm n cred PERM_R = false then .error .eperm
      else .ok n.data

/-! ## Collecting children -/

/-- `struct snap_child` -/
structure SnapChild where
  path : Bytes
  type : VfsType
  mode : BitVec 32
  owner : BitVec 32
  mtime : Int
  deriving DecidableEq

def SNAP_PATH_MAX : Nat := 4096

/-- What `collect_child` keeps of a node; the path is cut to the buffer. -/
def snapChild (n : VfsNode) : SnapChild := ⟨n.path.take (SNAP_PATH_MAX - 1), n.type, n.mode, n.owner, n.mtime⟩

/-- `struct snap_ctx` -/
structure SnapCtx where
  children : List SnapChild
  cap : Nat

/-- `collect_child`; `noMem` says at which counts the array cannot grow, and none is its -1. -/
def collectChild (noMem : Nat → Bool) (sc : SnapCtx) (n : VfsNode) : Option SnapCtx :=
  if sc.children.length ≥ sc.cap then
    if noMem sc.children.length then none
    else some ⟨sc.children ++ [snapChild n], if sc.cap = 0 then 16 else sc.cap * 2⟩
  else some ⟨sc.children ++ [snapChild n], sc.cap⟩

/-- `vfs_list` with `collect_child`; none is any result but `VFS_OK`. -/
def snapList (noMem : Nat → Bool) (fs : Vfs) (cred : VfsCred) (dirpath : Bytes) : Option (List SnapChild) :=
  match vfsList fs cred dirpath with
  | .error _ => none
  | .ok nodes => (nodes.foldlM (collectChild noMem) ⟨[], 0⟩).map SnapCtx.children

/-- `basename_of` -/
def basenameOf (path : Bytes) : Bytes := (path.reverse.takeWhile (· != 47)).reverse

/-! ## What a listing has -/

theorem slash_not_mem_join (name : Bytes) (names : List Bytes) (h : (47 : UInt8) ∉ name) :
    (47 : UInt8) ∉ name ++ join 47 names ↔ names = [] := by
  cases names with
  | nil => simp [h]
  | cons n ns => simp

/-- What follows a directory's path and its slash. -/
theorem drop_pathOf (d : List Bytes) (name : Bytes) (names : List Bytes) (hne : d ≠ []) :
    (pathOf (d ++ name :: names)).drop ((pathOf d).length + 1) = name ++ join 47 names := by
  have hsplit : join 47 d ++ 47 :: (name ++ join 47 names) = (join 47 d ++ [47]) ++ (name ++ join 47 names) := by simp
  rw [pathOf_ne_nil (d ++ name :: names) (by simp), pathOf_ne_nil d hne, join_append, join_cons, hsplit]
  apply List.drop_left'
  simp

/-- A path is right under a directory when it has one component more. -/
theorem directlyUnder_pathOf (d k : List Bytes) (hd : ∀ c ∈ d, IsName 47 c) (hk : ∀ c ∈ k, IsName 47 c) :
    directlyUnder (pathOf d) (pathOf k) = true ↔ ∃ c, k = d ++ [c] := by
  unfold directlyUnder
  by_cases hroot : pathOf d = [47]
  · rw [if_pos hroot]
    obtain rfl := (pathOf_eq_root d hd).mp hroot
    cases k with
    | nil => simp
    | cons name names =>
      have hname := hk name (by simp)
      have hpos : 0 < name.length := List.length_pos_of_ne_nil hname.1
      have hlen : 2 ≤ (47 :: (name ++ join 47 names) : Bytes).length := by
        rw [List.length_cons, List.length_append]
        omega
      rw [pathOf_ne_nil _ (by simp), join_cons]
      simp only [List.head?_cons, beq_self_eq_true, Bool.true_and, Bool.and_eq_true, decide_eq_true_eq,
        List.drop_succ_cons, List.drop_zero, Bool.not_eq_true', decide_eq_false_iff_not, List.nil_append,
        List.cons.injEq]
      rw [slash_not_mem_join name names hname.2]
      constructor
      · rintro ⟨-, rfl⟩
        exact ⟨name, rfl, rfl⟩
      · rintro ⟨c, -, rfl⟩
        exact ⟨hlen, rfl⟩
  · rw [if_neg hroot, Bool.and_eq_true]
    have hne : d ≠ [] := fun hnil => hroot ((pathOf_eq_root d hd).mpr hnil)
    rw [pathBelow_pathOf d k hd hk hne]
    constructor
    · rintro ⟨⟨name, names, rfl⟩, hslash⟩
      have hname := hk name (by simp)
      rw [drop_pathOf d name names hne, Bool.not_eq_true', decide_eq_false_iff_not,
        slash_not_mem_join name names hname.2] at hslash
      rw [hslash]
      exact ⟨name, rfl⟩
    · rintro ⟨name, rfl⟩
      have hname := hk name (by simp)
      refine ⟨⟨name, [], rfl⟩, ?_⟩
      rw [drop_pathOf d name [] hne, Bool.not_eq_true', decide_eq_false_iff_not, slash_not_mem_join name [] hname.2]

theorem mem_listing {fs : Vfs} (h : Shaped fs.nodes) (d : List Bytes) (hd : Components d) (n : VfsNode) :
    n ∈ listing fs (pathOf d) ↔ n ∈ fs.nodes ∧ ∃ c, nodeKey n = d ++ [c] := by
  unfold listing
  rw [List.mem_filter]
  constructor
  · rintro ⟨hn, hu⟩
    obtain ⟨hc, -, hp⟩ := (h.normal n hn).key
    rw [hp] at hu
    exact ⟨hn, (directlyUnder_pathOf d _ hd.names hc.names).mp hu⟩
  · rintro ⟨hn, hk⟩
    obtain ⟨hc, -, hp⟩ := (h.normal n hn).key
    refine ⟨hn, ?_⟩
    rw [hp]
    exact (directlyUnder_pathOf d _ hd.names hc.names).mpr hk

theorem vfsNormalize_pathOf (d : List Bytes) (hd : Components d) (hlen : (pathOf d).length < VFS_PATH_MAX) :
    vfsNormalize VFS_PATH_MAX (pathOf d) = .ok (pathOf d) := by
  by_cases hnil : d = []
  · subst hnil
    decide
  · exact ((normalPath_iff (pathOf d) hlen).mp ⟨d, hd, hnil, rfl⟩).1

/-- A directory has components. -/
theorem Shaped.dirAt_components {nodes : List VfsNode} (h : Shaped nodes) {d : List Bytes}
    (hd : DirAt isDirNode (treeOf nodes) d) : Components d := by
  rcases hd with rfl | ⟨n, hn, -⟩
  · exact components_nil
  · obtain ⟨hm, rfl⟩ := (h.treeOf_eq_some d n).mp hn
    exact (h.normal n hm).key.1

theorem vfsList_dir {fs : Vfs} (h : Shaped fs.nodes) (d : List Bytes) (hd : DirAt isDirNode (treeOf fs.nodes) d)
    (hlen : (pathOf d).length < VFS_PATH_MAX) : vfsList fs adminCred (pathOf d) = .ok (listing fs (pathOf d)) := by
  have hc := h.dirAt_components hd
  unfold vfsList
  rw [vfsNormalize_pathOf d hc hlen]
  dsimp only
  by_cases hroot : pathOf d = [47]
  · rw [if_pos hroot]
  · rw [if_neg hroot]
    rcases hd with rfl | ⟨n, hn, hdir⟩
    · exact absurd rfl hroot
    · have hdir' : n.type = .dir := hdir
      rw [nodeAt_pathOf fs h.normal d hc, hn]
      dsimp only
      rw [if_neg (by simp [hdir']), if_neg (by simp [checkPerm, adminCred])]

/-- A file is read as what it holds. -/
theorem vfsRead_file {fs : Vfs} (h : Shaped fs.nodes) (p : List Bytes) (n : VfsNode) (hn : treeOf fs.nodes p = some n)
    (hfile : n.type ≠ .dir) (hlen : (pathOf p).length < VFS_PATH_MAX) :
    vfsRead fs adminCred (pathOf p) = .ok n.data := by
  obtain ⟨hm, rfl⟩ := (h.treeOf_eq_some p n).mp hn
  have hc := (h.normal n hm).key.1
  unfold vfsRead
  rw [vfsNormalize_pathOf _ hc hlen]
  dsimp only
  rw [nodeAt_pathOf fs h.normal _ hc, hn]
  dsimp only
  rw [if_neg hfile, if_neg (by simp [checkPerm, adminCred])]

/-! ## What is collected -/

theorem foldlM_collectChild (noMem : Nat → Bool) (nodes : List VfsNode) (sc sc' : SnapCtx)
    (h : nodes.foldlM (collectChild noMem) sc = some sc') : sc'.children = sc.children ++ nodes.map snapChild := by
  induction nodes generalizing sc with
  | nil =>
    obtain rfl := Option.some.inj h
    simp
  | cons n nodes ih =>
    rw [List.foldlM_cons] at h
    obtain ⟨sc1, h1, h2⟩ := Option.bind_eq_some_iff.mp h
    have hone : sc1.children = sc.children ++ [snapChild n] := by
      unfold collectChild at h1
      split at h1
      · split at h1
        · cases h1
        · rw [← Option.some.inj h1]
      · rw [← Option.some.inj h1]
    rw [ih sc1 h2, hone]
    simp

/-- A directory that is collected is collected whole. -/
theorem snapList_some {noMem : Nat → Bool} {fs : Vfs} {cred : VfsCred} {dirpath : Bytes} {children : List SnapChild}
    (h : snapList noMem fs cred dirpath = some children) :
    ∃ nodes, vfsList fs cred dirpath = .ok nodes ∧ children = nodes.map snapChild := by
  unfold snapList at h
  split at h
  · cases h
  · next nodes hl =>
    obtain ⟨sc, hsc, rfl⟩ := Option.map_eq_some_iff.mp h
    exact ⟨nodes, hl, by simpa using foldlM_collectChild noMem nodes _ sc hsc⟩

/-! ## Names of children -/

theorem basenameOf_slash (a name : Bytes) (h : (47 : UInt8) ∉ name) : basenameOf (a ++ 47 :: name) = name := by
  unfold basenameOf
  have hrev : (a ++ 47 :: name).reverse = name.reverse ++ 47 :: a.reverse := by simp
  rw [hrev, List.takeWhile_append_of_pos]
  · simp
  · intro c hc
    have hne : c ≠ 47 := by
      rintro rfl
      exact h (by simpa using hc)
    simpa using hne

theorem basenameOf_concat (d : List Bytes) (c : Bytes) (h : (47 : UInt8) ∉ c) : basenameOf (pathOf (d ++ [c])) = c := by
  rw [pathOf_ne_nil _ (by simp), join_concat, basenameOf_slash _ c h]

theorem length_pathOf_concat (d : List Bytes) (c : Bytes) (hc : c ≠ []) :
    (pathOf d).length < (pathOf (d ++ [c])).length := by
  have hpos : 0 < c.length := List.length_pos_of_ne_nil hc
  rw [pathOf_ne_nil (d ++ [c]) (by simp), join_concat, List.length_append, List.length_cons]
  by_cases hd : d = []
  · subst hd
    simp only [pathOf_nil, List.length_cons, List.length_nil]
    omega
  · rw [pathOf_ne_nil d hd]
    omega

/-- The path of a child, before it is cut. -/
def joinPath (dirpath name : Bytes) : Bytes := if dirpath = [47] then 47 :: name else dirpath ++ 47 :: name

theorem joinPath_pathOf (d : List Bytes) (hd : ∀ c ∈ d, IsName 47 c) (name : Bytes) :
    joinPath (pathOf d) name = pathOf (d ++ [name]) := by
  unfold joinPath
  rw [pathOf_ne_nil (d ++ [name]) (by simp), join_concat]
  by_cases hroot : pathOf d = [47]
  · rw [if_pos hroot, (pathOf_eq_root d hd).mp hroot]
    simp
  · rw [if_neg hroot, pathOf_ne_nil d fun hnil => hroot ((pathOf_eq_root d hd).mpr hnil)]

/-- The path of a child, when it fits the buffer. -/
theorem childPath_pathOf (d : List Bytes) (hd : ∀ c ∈ d, IsName 47 c) (name : CStr)
    (hlen : (pathOf (d ++ [name.bytes])).length < SNAP_PATH_MAX) :
    childPath (pathOf d) name = pathOf (d ++ [name.bytes]) := by
  have hfull := joinPath_pathOf d hd name.bytes
  unfold joinPath at hfull
  unfold childPath
  rw [hfull]
  apply List.take_of_length_le
  unfold SNAP_PATH_MAX at hlen
  omega

end Smolvfs
