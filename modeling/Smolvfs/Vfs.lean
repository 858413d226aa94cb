import Smolvfs.Lib.Keyed
import Smolvfs.VfsPath

/-!
# The virtual filesystem

`vfs.c`: the nodes are an array in no order, each under its full path, and the root
directory is not among them.  Every operation looks its node up by path, an appended
node goes to the end of the array and a removed one is replaced by the last.

Sizes and the usage counter are 64-bit.  A size is the length of the contents.  The
clock stands still during a call.
-/

namespace Smolvfs

open Octets Keyed

/-! ## State -/

inductive VfsType
  | file | dir
  deriving DecidableEq, Repr

/-- `struct vfs_node` -/
structure VfsNode where
  path : Bytes
  type : VfsType
  mode : BitVec 32
  owner : BitVec 32
  ctime : Int
  mtime : Int
  data : Bytes
  deriving DecidableEq

/-- `size` -/
def VfsNode.size (n : VfsNode) : Nat := n.data.length

/-- `struct vfs` -/
structure Vfs where
  nodes : List VfsNode
  usage : Nat
  quota : Nat
  umask : BitVec 32
  deriving DecidableEq

/-- `struct vfs_cred` -/
structure VfsCred where
  uid : BitVec 32
  isAdmin : Bool
  isGroup : Bool
  deriving DecidableEq

/-- A caller with all rights. -/
def adminCred : VfsCred := ⟨0#32, true, false⟩

/-- The allocations: of a node, of a file's contents, of a renamed path. -/
inductive VfsSite
  | addNode (path : Bytes) | copyData (path : Bytes) | renamePath (path : Bytes)
  deriving DecidableEq

/-- Which allocations fail. -/
abbrev VfsFaults := VfsSite → Bool

def noVfsFaults : VfsFaults := fun _ => false

def VFS_MODE_FILE_DEFAULT : BitVec 32 := 0o666#32
def VFS_MODE_DIR_DEFAULT : BitVec 32 := 0o777#32

/-- `vfs_new` -/
def vfsNew (quota : Nat) (umask : BitVec 32) : Vfs := ⟨[], 0, quota % 2 ^ 64, umask &&& 0o777#32⟩

/-! ## Nodes -/

/-- `find_node`: the index of the node. -/
def findNode (fs : Vfs) (path : Bytes) : Option Nat := fs.nodes.findIdx? fun n => decide (n.path = path)

/-- The node that `find_node` points to. -/
def nodeAt (fs : Vfs) (path : Bytes) : Option VfsNode := fs.nodes.find? fun n => decide (n.path = path)

/-- The node `add_node` makes, with the contents its caller puts in. -/
def newNode (path : Bytes) (type : VfsType) (mode owner : BitVec 32) (data : Bytes) (now : Int) : VfsNode :=
  ⟨path, type, mode &&& 0o777#32, owner, now, now, data⟩

/-- `add_node` -/
def addNode (flt : VfsFaults) (fs : Vfs) (path : Bytes) (type : VfsType) (mode owner : BitVec 32) (data : Bytes)
    (now : Int) : Option Vfs :=
  if flt (.addNode path) then none
  else some { fs with nodes := fs.nodes ++ [newNode path type mode owner data now] }

/-- `a - b` and `a + b` of `uint64_t`. -/
def sub64 (a b : Nat) : Nat := (a + (2 ^ 64 - b % 2 ^ 64)) % 2 ^ 64

def add64 (a b : Nat) : Nat := (a + b) % 2 ^ 64

/-- `remove_node`: the last node takes its place. -/
def removeNode (fs : Vfs) (i : Nat) : Vfs :=
  match fs.nodes[i]? with
  | none => fs
  | some n =>
    { fs with
      usage := if n.type = .file then sub64 fs.usage n.size else fs.usage
      nodes := swapRemove fs.nodes i }

def PERM_R : BitVec 32 := 4#32
def PERM_W : BitVec 32 := 2#32

/-- `check_perm` -/
def checkPerm (n : VfsNode) (cred : VfsCred) (perm : BitVec 32) : Bool :=
  cred.isAdmin || (cred.uid == n.owner && n.mode &&& (perm <<< 6) != 0#32) ||
    (cred.isGroup && n.mode &&& (perm <<< 3) != 0#32) || n.mode &&& perm != 0#32

/-! ## Parents -/

/-- `ensure_parents`; each level of the recursion is for a shorter path, and `fuel` is the first one's length. -/
def ensureParents (flt : VfsFaults) (cred : VfsCred) (now : Int) : Nat → Vfs → Bytes → VfsStatus × Vfs
  | 0, fs, _ => (.ok, fs)
  | fuel + 1, fs, path =>
    match pathParent VFS_PATH_MAX path with
    | .error _ => (.ok, fs)
    | .ok parent =>
      if parent = [47] then (.ok, fs)
      else
        match nodeAt fs parent with
        | some pn => if pn.type ≠ .dir then (.enotdir, fs) else (.ok, fs)
        | none =>
          match ensureParents flt cred now fuel fs parent with
          | (.ok, fs) =>
            match addNode flt fs parent .dir (VFS_MODE_DIR_DEFAULT &&& ~~~fs.umask) cred.uid [] now with
            | none => (.enomem, fs)
            | some fs => (.ok, fs)
          | r => r

/-- The check that the parent is there, where it is not created. -/
def checkParent (fs : Vfs) (norm : Bytes) : VfsStatus :=
  match pathParent VFS_PATH_MAX norm with
  | .error _ => .ok
  | .ok parent =>
    if parent = [47] then .ok
    else
      match nodeAt fs parent with
      | none => .enotfound
      | some pn => if pn.type ≠ .dir then .enotdir else .ok

/-- The parents are created, or they are looked for. -/
def prepareParents (flt : VfsFaults) (fs : Vfs) (cred : VfsCred) (norm : Bytes) (createParents : Bool) (now : Int) :
    VfsStatus × Vfs :=
  if createParents then ensureParents flt cred now norm.length fs norm else (checkParent fs norm, fs)

/-! ## Operations -/

/-- `vfs_write` -/
def vfsWrite (flt : VfsFaults) (fs : Vfs) (cred : VfsCred) (path data : Bytes) (createParents : Bool) (now : Int) :
    VfsStatus × Vfs :=
  match vfsNormalize VFS_PATH_MAX path with
  | .error rc => (rc, fs)
  | .ok norm =>
    if norm = [47] then (.eisdir, fs)
    else if validatePathComponents norm ≠ .ok then (validatePathComponents norm, fs)
    else
      let existing := findNode fs norm
      let node := nodeAt fs norm
      if node.any fun n => n.type = .dir then (.eisdir, fs)
      else if node.any fun n => !checkPerm n cred PERM_W then (.eperm, fs)
      else
        let oldSize := (node.map VfsNode.size).getD 0
        if fs.quota > 0 ∧ add64 (sub64 fs.usage oldSize) data.length > fs.quota then (.equota, fs)
        else
          match prepareParents flt fs cred norm createParents now with
          | (.ok, fs) =>
            if data.length > 0 ∧ flt (.copyData norm) = true then (.enomem, fs)
            else
              match existing, node with
              | some i, some n =>
                (.ok, { fs with
                  nodes := fs.nodes.set i { n with data := data, mtime := now }
                  usage := add64 (sub64 fs.usage oldSize) data.length })
              | _, _ =>
                match addNode flt fs norm .file (VFS_MODE_FILE_DEFAULT &&& ~~~fs.umask) cred.uid data now with
                | none => (.enomem, fs)
                | some fs => (.ok, { fs with usage := add64 fs.usage data.length })
          | r => r

/-- `vfs_mkdir` -/
def vfsMkdir (flt : VfsFaults) (fs : Vfs) (cred : VfsCred) (path : Bytes) (createParents : Bool) (now : Int) :
    VfsStatus × Vfs :=
  match vfsNormalize VFS_PATH_MAX path with
  | .error rc => (rc, fs)
  | .ok norm =>
    if norm = [47] then (.ok, fs)
    else if validatePathComponents norm ≠ .ok then (validatePathComponents norm, fs)
    else
      match nodeAt fs norm with
      | some n => if n.type = .dir ∧ createParents = true then (.ok, fs) else (.eexist, fs)
      | none =>
        match prepareParents flt fs cred norm createParents now with
        | (.ok, fs) =>
          match addNode flt fs norm .dir (VFS_MODE_DIR_DEFAULT &&& ~~~fs.umask) cred.uid [] now with
          | none => (.enomem, fs)
          | some fs => (.ok, fs)
        | r => r

/-- `count_children`: of the root the nodes right under it, of a directory all below it. -/
def countChildren (fs : Vfs) (dirpath : Bytes) : Nat :=
  fs.nodes.countP fun n =>
    if dirpath = [47] then n.path.head? == some 47 && decide (n.path.length > 1) && !decide (47 ∈ n.path.drop 1)
    else pathBelow dirpath n.path

/-- `vfs_delete` -/
def vfsDelete (fs : Vfs) (cred : VfsCred) (path : Bytes) : VfsStatus × Vfs :=
  match vfsNormalize VFS_PATH_MAX path with
  | .error rc => (rc, fs)
  | .ok norm =>
    if norm = [47] then (.eperm, fs)
    else
      match findNode fs norm, nodeAt fs norm with
      | some i, some n =>
        if checkPerm n cred PERM_W = false then (.eperm, fs)
        else if n.type = .dir ∧ countChildren fs norm > 0 then (.enotempty, fs)
        else (.ok, removeNode fs i)
      | _, _ => (.enotfound, fs)

/-- The loop of `vfs_delete_recursive`, down from index `i - 1`. -/
def deleteBelow (norm : Bytes) : Nat → Vfs → Vfs
  | 0, fs => fs
  | i + 1, fs =>
    deleteBelow norm i (if (fs.nodes[i]?).any fun n => pathBelow norm n.path then removeNode fs i else fs)

/-- `vfs_delete_recursive` -/
def vfsDeleteRecursive (fs : Vfs) (cred : VfsCred) (path : Bytes) : VfsStatus × Vfs :=
  match vfsNormalize VFS_PATH_MAX path with
  | .error rc => (rc, fs)
  | .ok norm =>
    if norm = [47] then (.eperm, fs)
    else
      match findNode fs norm, nodeAt fs norm with
      | some i, some n =>
        if checkPerm n cred PERM_W = false then (.eperm, fs)
        else if n.type ≠ .dir then (.ok, removeNode fs i)
        else
          let fs := deleteBelow norm fs.nodes.length fs
          match findNode fs norm with
          | none => (.ok, fs)
          | some i => (.ok, removeNode fs i)
      | _, _ => (.enotfound, fs)

/-- A node's path under the new name of a directory that is above it. -/
def renameBelow (onorm nnorm : Bytes) (now : Int) (n : VfsNode) : VfsNode :=
  if pathBelow onorm n.path then { n with path := nnorm ++ n.path.drop onorm.length, mtime := now } else n

/-- The loop of `vfs_rename` over the nodes; it stops where an allocation fails. -/
def renameLoop (flt : VfsFaults) (onorm nnorm : Bytes) (now : Int) : List VfsNode → Bool × List VfsNode
  | [] => (true, [])
  | n :: ns =>
    if pathBelow onorm n.path ∧ flt (.renamePath n.path) = true then (false, n :: ns)
    else
      let r := renameLoop flt onorm nnorm now ns
      (r.1, renameBelow onorm nnorm now n :: r.2)

/-- The end of `vfs_rename`, when nothing is in the way: what is below a directory, then the node `i` itself. -/
def renameNode (flt : VfsFaults) (fs : Vfs) (i : Nat) (src : VfsNode) (onorm nnorm : Bytes) (now : Int) :
    VfsStatus × Vfs :=
  let r := if src.type = .dir then renameLoop flt onorm nnorm now fs.nodes else (true, fs.nodes)
  if r.1 = false then (.enomem, { fs with nodes := r.2 })
  else if flt (.renamePath onorm) then (.enomem, { fs with nodes := r.2 })
  else (.ok, { fs with nodes := r.2.set i { src with path := nnorm, mtime := now } })

/-- The destination of a rename, when there is one, is removed. -/
def clearDst (fs : Vfs) (nnorm : Bytes) : Vfs :=
  match findNode fs nnorm with
  | none => fs
  | some j => removeNode fs j

/-- `vfs_rename` -/
def vfsRename (flt : VfsFaults) (fs : Vfs) (cred : VfsCred) (oldPath newPath : Bytes) (now : Int) : VfsStatus × Vfs :=
  match vfsNormalize VFS_PATH_MAX oldPath with
  | .error rc => (rc, fs)
  | .ok onorm =>
    match vfsNormalize VFS_PATH_MAX newPath with
    | .error rc => (rc, fs)
    | .ok nnorm =>
      if onorm = [47] ∨ nnorm = [47] then (.eperm, fs)
      else if validatePathComponents nnorm ≠ .ok then (validatePathComponents nnorm, fs)
      else if onorm = nnorm then (.ok, fs)
      else if pathBelow onorm nnorm then (.ebadpath, fs)
      else
        match nodeAt fs onorm with
        | none => (.enotfound, fs)
        | some src =>
          if checkPerm src cred PERM_W = false then (.eperm, fs)
          else if (nodeAt fs nnorm).any fun dst => dst.type = .dir ∧ countChildren fs nnorm > 0 then (.enotempty, fs)
          else
            let fs := clearDst fs nnorm
            match findNode fs onorm, nodeAt fs onorm with
            | some i, some src =>
              if checkParent fs nnorm ≠ .ok then (checkParent fs nnorm, fs)
              else renameNode flt fs i src onorm nnorm now
            | _, _ => (.err, fs)

/-- `vfs_copy` -/
def vfsCopy (flt : VfsFaults) (fs : Vfs) (cred : VfsCred) (srcPath dstPath : Bytes) (createParents : Bool) (now : Int) :
    VfsStatus × Vfs :=
  match vfsNormalize VFS_PATH_MAX srcPath with
  | .error rc => (rc, fs)
  | .ok snorm =>
    match nodeAt fs snorm with
    | none => (.enotfound, fs)
    | some src =>
      if src.type = .dir then (.eisdir, fs)
      else if checkPerm src cred PERM_R = false then (.eperm, fs)
      else if src.data.length > 0 ∧ flt (.copyData snorm) = true then (.enomem, fs)
      else vfsWrite flt fs cred dstPath src.data createParents now

/-- `vfs_chmod` -/
def vfsChmod (fs : Vfs) (cred : VfsCred) (path : Bytes) (mode : BitVec 32) (now : Int) : VfsStatus × Vfs :=
  if cred.isAdmin = false then (.eperm, fs)
  else
    match vfsNormalize VFS_PATH_MAX path with
    | .error rc => (rc, fs)
    | .ok norm =>
      match findNode fs norm, nodeAt fs norm with
      | some i, some n => (.ok, { fs with nodes := fs.nodes.set i { n with mode := mode &&& 0o777#32, mtime := now } })
      | _, _ => (.enotfound, fs)

end Smolvfs
