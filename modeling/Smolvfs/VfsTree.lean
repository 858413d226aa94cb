import Mathlib.Data.List.Find
import Smolvfs.Lib.PathTree
import Smolvfs.Vfs

/-!
# The nodes as a tree

The nodes of the filesystem as a tree of component lists (`treeOf`).  Nodes whose
paths are in normal form and distinct, and whose tree is closed, are `Shaped`; what
appending, overwriting, removing and renaming do to the array they do to the tree.
-/

namespace Smolvfs

open Octets Keyed Names PathTree

/-! ## Normal form -/

/-- A path in normal form, other than the root's. -/
def NormalPath (path : Bytes) : Prop := ∃ comps, Components comps ∧ comps ≠ [] ∧ path = pathOf comps

/-- The components of a node's path. -/
def nodeKey (n : VfsNode) : List Bytes := parts 47 n.path

theorem nodeKey_pathOf (n : VfsNode) (comps : List Bytes) (h : Components comps) (hp : n.path = pathOf comps) :
    nodeKey n = comps := by
  unfold nodeKey
  rw [hp, parts_pathOf comps h.names]

/-- A node's key is its path, in other words. -/
theorem NormalPath.key {n : VfsNode} (h : NormalPath n.path) :
    Components (nodeKey n) ∧ nodeKey n ≠ [] ∧ n.path = pathOf (nodeKey n) := by
  obtain ⟨comps, hc, hne, hp⟩ := h
  rw [nodeKey_pathOf n comps hc hp]
  exact ⟨hc, hne, hp⟩

theorem NormalPath.path_eq_iff {n : VfsNode} (h : NormalPath n.path) (comps : List Bytes) (hc : Components comps) :
    n.path = pathOf comps ↔ nodeKey n = comps := by
  constructor
  · exact nodeKey_pathOf n comps hc
  · rintro rfl
    exact h.key.2.2

theorem normalPath_of_normalize {bufsz : Nat} {path norm : Bytes} (h : vfsNormalize bufsz path = .ok norm)
    (hroot : norm ≠ [47]) : NormalPath norm := by
  obtain ⟨hp, -⟩ := vfsNormalize_ok bufsz path norm h
  refine ⟨_, pathComponents_ok path, ?_, hp⟩
  intro hnil
  rw [hnil] at hp
  exact hroot hp

/-- **A path short enough is in normal form exactly when `vfs_normalize` leaves it as it is.** -/
theorem normalPath_iff (path : Bytes) (hlen : path.length < VFS_PATH_MAX) :
    NormalPath path ↔ vfsNormalize VFS_PATH_MAX path = .ok path ∧ path ≠ [47] := by
  constructor
  · rintro ⟨comps, hc, hne, rfl⟩
    have hcomps := pathComponents_pathOf comps hc
    have hhead : (pathOf comps).head? = some 47 := by
      rw [pathOf_ne_nil comps hne]
      cases comps with
      | nil => exact absurd rfl hne
      | cons c cs => simp
    refine ⟨?_, fun h => hne ((pathOf_eq_root comps hc.names).mp h)⟩
    unfold vfsNormalize
    rw [if_neg (by simp [hhead]), if_neg (by omega), hcomps, if_neg hne, rebuildPath_eq _ _ _ hne]
    rw [pathOf_ne_nil comps hne] at hlen ⊢
    rw [if_neg (by omega)]
  · rintro ⟨h, hroot⟩
    exact normalPath_of_normalize h hroot

/-! ## The tree of the nodes -/

/-- The node at the path of the components. -/
def treeOf (nodes : List VfsNode) : Tree Bytes VfsNode := lookup nodeKey nodes

/-- A node that can have others below it. -/
def isDirNode (n : VfsNode) : Prop := n.type = .dir

instance (n : VfsNode) : Decidable (isDirNode n) := inferInstanceAs (Decidable (_ = _))

/-- Nodes that make a tree. -/
structure Shaped (nodes : List VfsNode) : Prop where
  normal : ∀ n ∈ nodes, NormalPath n.path
  distinct : Distinct nodeKey nodes
  closed : Closed isDirNode (treeOf nodes)

theorem shaped_nil : Shaped [] := ⟨by simp, List.nodup_nil, Closed.empty⟩

/-- `find_node` is a look into the tree. -/
theorem nodeAt_pathOf (fs : Vfs) (h : ∀ n ∈ fs.nodes, NormalPath n.path) (comps : List Bytes) (hc : Components comps) :
    nodeAt fs (pathOf comps) = treeOf fs.nodes comps := by
  unfold nodeAt treeOf lookup
  refine List.find?_congr fun n hn => ?_
  rw [decide_eq_decide, (h n hn).path_eq_iff comps hc]

theorem nodeAt_eq_bind (fs : Vfs) (path : Bytes) : nodeAt fs path = (findNode fs path).bind fun i => fs.nodes[i]? :=
  List.find?_eq_bind_findIdx?_getElem?

theorem findNode_none {fs : Vfs} {path : Bytes} (h : nodeAt fs path = none) : findNode fs path = none := by
  unfold findNode
  unfold nodeAt at h
  rw [List.findIdx?_eq_none_iff]
  intro n hn
  simpa using List.find?_eq_none.mp h n hn

theorem findNode_some {fs : Vfs} {path : Bytes} {n : VfsNode} (h : nodeAt fs path = some n) :
    ∃ i, findNode fs path = some i ∧ fs.nodes[i]? = some n := by
  rw [nodeAt_eq_bind] at h
  exact Option.bind_eq_some_iff.mp h

theorem nodeAt_some {fs : Vfs} {path : Bytes} {n : VfsNode} (h : nodeAt fs path = some n) :
    n ∈ fs.nodes ∧ n.path = path :=
  ⟨List.mem_of_find?_eq_some h, by simpa using List.find?_some h⟩

theorem Shaped.treeOf_eq_some {nodes : List VfsNode} (h : Shaped nodes) (comps : List Bytes) (n : VfsNode) :
    treeOf nodes comps = some n ↔ n ∈ nodes ∧ nodeKey n = comps := lookup_eq_some h.distinct comps n

theorem treeOf_eq_none (nodes : List VfsNode) (comps : List Bytes) :
    treeOf nodes comps = none ↔ ∀ n ∈ nodes, nodeKey n ≠ comps := lookup_eq_none nodeKey nodes comps

/-- The order of the nodes does not show. -/
theorem Shaped.perm {nodes nodes' : List VfsNode} (h : Shaped nodes) (hp : nodes.Perm nodes') : Shaped nodes' where
  normal n hn := h.normal n (hp.mem_iff.mpr hn)
  distinct := h.distinct.perm hp
  closed := by
    have := h.closed
    unfold treeOf at this ⊢
    rwa [lookup_perm h.distinct hp]

/-! ## What happens to the array -/

/-- A node appended under a directory, where there is none. -/
theorem Shaped.append {nodes : List VfsNode} (h : Shaped nodes) (comps : List Bytes) (c : Bytes) (n : VfsNode)
    (hc : Components (comps ++ [c])) (hn : n.path = pathOf (comps ++ [c])) (hfree : treeOf nodes (comps ++ [c]) = none)
    (hdir : DirAt isDirNode (treeOf nodes) comps) :
    Shaped (nodes ++ [n]) ∧ treeOf (nodes ++ [n]) = Function.update (treeOf nodes) (comps ++ [c]) (some n) := by
  have hkey := nodeKey_pathOf n _ hc hn
  have hne : ∀ m ∈ nodes, nodeKey m ≠ nodeKey n := by
    rw [hkey]
    exact (treeOf_eq_none _ _).mp hfree
  have htree : treeOf (nodes ++ [n]) = Function.update (treeOf nodes) (comps ++ [c]) (some n) := by
    rw [← hkey]
    exact lookup_append h.distinct hne
  refine ⟨⟨?_, h.distinct.append hne, ?_⟩, htree⟩
  · intro m hm
    rcases List.mem_append.mp hm with hm | hm
    · exact h.normal m hm
    · obtain rfl := List.mem_singleton.mp hm
      exact ⟨_, hc, by simp, hn⟩
  · rw [htree]
    exact h.closed.set comps c n hdir fun d hd => by rw [hfree] at hd; cases hd

/-- A node overwritten by one of its type. -/
theorem Shaped.set {nodes : List VfsNode} (h : Shaped nodes) (i : Nat) (n m : VfsNode) (hi : nodes[i]? = some n)
    (hp : m.path = n.path) (ht : m.type = n.type) :
    Shaped (nodes.set i m) ∧ treeOf (nodes.set i m) = Function.update (treeOf nodes) (nodeKey n) (some m) := by
  have hkey : nodeKey m = nodeKey n := by
    unfold nodeKey
    rw [hp]
  have hmem : n ∈ nodes := List.mem_of_getElem? hi
  have htree : treeOf (nodes.set i m) = Function.update (treeOf nodes) (nodeKey n) (some m) :=
    lookup_set h.distinct hi hkey
  refine ⟨⟨?_, h.distinct.set hi hkey, ?_⟩, htree⟩
  · intro x hx
    rcases List.mem_or_eq_of_mem_set hx with hx | rfl
    · exact h.normal x hx
    · rw [hp]
      exact h.normal n hmem
  · rw [htree]
    obtain ⟨-, hne, -⟩ := (h.normal n hmem).key
    obtain ⟨init, last, hcat⟩ := (List.eq_nil_or_concat (nodeKey n)).resolve_left hne
    rw [List.concat_eq_append] at hcat
    have hat := (h.treeOf_eq_some (init ++ [last]) n).mpr ⟨hmem, hcat⟩
    rw [hcat]
    refine h.closed.set init last m (h.closed.parent init last n hat) fun d hd hdd => ?_
    rw [hat] at hd
    obtain rfl := Option.some.inj hd
    exact ht.trans hdd

/-- Nodes that are kept, when what is above a kept one is. -/
theorem Shaped.filter {nodes : List VfsNode} (h : Shaped nodes) (keep : List Bytes → Bool)
    (hkeep : ∀ p n, treeOf nodes (p ++ [n]) ≠ none → keep (p ++ [n]) = true → p ≠ [] → keep p = true) :
    Shaped (nodes.filter fun n => keep (nodeKey n)) ∧
      treeOf (nodes.filter fun n => keep (nodeKey n)) = restrict keep (treeOf nodes) := by
  have htree : treeOf (nodes.filter fun n => keep (nodeKey n)) = restrict keep (treeOf nodes) :=
    lookup_filter h.distinct keep
  refine ⟨⟨fun n hn => h.normal n (List.mem_filter.mp hn).1, h.distinct.filter _, ?_⟩, htree⟩
  rw [htree]
  exact h.closed.restrict keep hkeep

/-! ## Sizes -/

/-- The size of a node that is a file. -/
def fileSize (n : VfsNode) : Nat := if n.type = .file then n.size else 0

/-- The sum of the stored file sizes. -/
def fileBytes (nodes : List VfsNode) : Nat := (nodes.map fileSize).sum

theorem fileBytes_append (a b : List VfsNode) : fileBytes (a ++ b) = fileBytes a + fileBytes b := by
  simp [fileBytes]

theorem fileBytes_perm {a b : List VfsNode} (h : a.Perm b) : fileBytes a = fileBytes b := (h.map fileSize).sum_eq

theorem fileBytes_eraseIdx (nodes : List VfsNode) (i : Nat) (n : VfsNode) (h : nodes[i]? = some n) :
    fileBytes nodes = fileSize n + fileBytes (nodes.eraseIdx i) := by
  rw [fileBytes_perm (perm_cons_eraseIdx nodes i n h)]
  simp [fileBytes]

theorem fileBytes_set (nodes : List VfsNode) (i : Nat) (n m : VfsNode) (h : nodes[i]? = some n) :
    fileBytes (nodes.set i m) + fileSize n = fileBytes nodes + fileSize m := by
  have hset := fileBytes_perm (set_perm nodes m i (List.getElem?_eq_some_iff.mp h).1)
  have her := fileBytes_eraseIdx nodes i n h
  simp only [fileBytes, List.map_cons, List.sum_cons] at hset her ⊢
  omega

theorem fileSize_le (nodes : List VfsNode) (n : VfsNode) (h : n ∈ nodes) : fileSize n ≤ fileBytes nodes := by
  obtain ⟨i, hi⟩ := List.mem_iff_getElem?.mp h
  rw [fileBytes_eraseIdx nodes i n hi]
  omega

end Smolvfs
