import Mathlib.Algebra.BigOperators.Finprod
import Smolvfs.VfsAddress
import Smolvfs.VfsList
import Smolvfs.VfsNormalize

/-!
# The filesystem as a tree

What `vfs.h` offers, said of a tree of files and directories and not of an array of
nodes: where an entry is, who may touch it, what a call answers and what it changes.

A path is a list of names.  The space in use is the sum of the sizes in the tree, and
permissions are bits of the mode.  The root is a directory that is always there, which
everybody may read and nobody may replace; it is not an entry, so it is neither read as
a file nor given another mode.
-/

namespace Smolvfs

open Octets Names PathTree

/-! ## Entries -/

/-- A file or a directory. -/
structure FileEntry where
  type : VfsType
  mode : BitVec 32
  owner : BitVec 32
  ctime : Int
  mtime : Int
  data : Bytes
  deriving DecidableEq

/-- The bits of reading and writing, of those who are neither the owner nor of the group. -/
def readBit : Nat := 2
def writeBit : Nat := 1

/-- The owner's bits are six further on, the group's three. -/
def FileEntry.allows (e : FileEntry) (cred : VfsCred) (bit : Nat) : Bool :=
  cred.isAdmin || (decide (cred.uid = e.owner) && e.mode.getLsbD (bit + 6)) ||
    (cred.isGroup && e.mode.getLsbD (bit + 3)) || e.mode.getLsbD bit

/-- What a file takes up. -/
def FileEntry.size (e : FileEntry) : Nat := if e.type = .file then e.data.length else 0

/-- `/` -/
def rootEntry : FileEntry := ⟨.dir, VFS_MODE_DIR_DEFAULT, 0#32, 0, 0, []⟩

/-! ## Trees -/

structure FileTree where
  tree : Tree Bytes FileEntry
  quota : Nat
  umask : BitVec 32

/-- A new one. -/
def FileTree.new (quota : Nat) (umask : BitVec 32) : FileTree := ⟨fun _ => none, quota % 2 ^ 64, umask &&& 0o777#32⟩

/-- Where an absolute path leads. -/
def parsePath (path : Bytes) : Except VfsStatus (List Bytes) :=
  if path.head? = some 47 ∧ path.length < VFS_PATH_MAX then .ok (referenceComponents path) else .error .ebadpath

/-- Names that may be given. -/
def GoodNames (p : List Bytes) : Prop := ∀ c ∈ p, ∀ x ∈ c, 0x20 ≤ x.toNat ∧ x ∉ ILLEGAL_CHARS

instance (p : List Bytes) : Decidable (GoodNames p) := inferInstanceAs (Decidable (∀ c ∈ p, ∀ x ∈ c, _))

namespace FileTree

variable (s : FileTree)

/-- The entry at a path, the root included. -/
def get (p : List Bytes) : Option FileEntry := if p = [] then some rootEntry else s.tree p

/-- The space in use. -/
noncomputable def used : Nat := finsum fun p => ((s.tree p).map FileEntry.size).getD 0

/-- `new` octets in the place of `old` ones are more than the quota; a quota of 0 is none. -/
def OverQuota (old new : Nat) : Prop := 0 < s.quota ∧ s.quota < s.used - old + new

/-- There is an entry below. -/
def HasBelow (p : List Bytes) : Prop := ∃ q, Below p q ∧ s.tree q ≠ none

/-- A directory and a file that are new. -/
def newDir (cred : VfsCred) (now : Int) : FileEntry :=
  ⟨.dir, VFS_MODE_DIR_DEFAULT &&& ~~~s.umask, cred.uid, now, now, []⟩

def newFile (cred : VfsCred) (data : Bytes) (now : Int) : FileEntry :=
  ⟨.file, VFS_MODE_FILE_DEFAULT &&& ~~~s.umask, cred.uid, now, now, data⟩

open Classical in
/-- Whether an entry can be put into `dir`: nothing above it is a file, and if the parents are not to be made they are
there. -/
noncomputable def checkDir (dir : List Bytes) (createParents : Bool) : VfsStatus :=
  if createParents then (if ∃ q e, q <+: dir ∧ s.tree q = some e ∧ e.type ≠ .dir then .enotdir else .ok)
  else
    match s.get dir with
    | none => .enotfound
    | some e => if e.type = .dir then .ok else .enotdir

/-- A new entry at a path that is free, with the parents that are missing. -/
noncomputable def insert (cred : VfsCred) (now : Int) (p : List Bytes) (createParents : Bool) (e : FileEntry) :
    VfsStatus × FileTree :=
  if s.checkDir p.dropLast createParents ≠ .ok then (s.checkDir p.dropLast createParents, s)
  else
    let t := if createParents then fill p.dropLast (s.newDir cred now) s.tree else s.tree
    (.ok, { s with tree := Function.update t p (some e) })

/-! ## Calls -/

variable (cred : VfsCred) (now : Int)

open Classical in
noncomputable def write (path data : Bytes) (createParents : Bool) : VfsStatus × FileTree :=
  match parsePath path with
  | .error rc => (rc, s)
  | .ok p =>
    if p = [] then (.eisdir, s)
    else if ¬ GoodNames p then (.ebadpath, s)
    else
      match s.tree p with
      | some e =>
        if e.type = .dir then (.eisdir, s)
        else if e.allows cred writeBit = false then (.eperm, s)
        else if s.OverQuota e.size data.length then (.equota, s)
        else (.ok, { s with tree := Function.update s.tree p (some { e with data := data, mtime := now }) })
      | none =>
        if s.OverQuota 0 data.length then (.equota, s)
        else s.insert cred now p createParents (s.newFile cred data now)

noncomputable def mkdir (path : Bytes) (createParents : Bool) : VfsStatus × FileTree :=
  match parsePath path with
  | .error rc => (rc, s)
  | .ok p =>
    if p = [] then (.ok, s)
    else if ¬ GoodNames p then (.ebadpath, s)
    else
      match s.tree p with
      | some e => if e.type = .dir ∧ createParents = true then (.ok, s) else (.eexist, s)
      | none => s.insert cred now p createParents (s.newDir cred now)

open Classical in
/-- Of a directory only an empty one. -/
noncomputable def delete (path : Bytes) : VfsStatus × FileTree :=
  match parsePath path with
  | .error rc => (rc, s)
  | .ok p =>
    if p = [] then (.eperm, s)
    else
      match s.tree p with
      | none => (.enotfound, s)
      | some e =>
        if e.allows cred writeBit = false then (.eperm, s)
        else if e.type = .dir ∧ s.HasBelow p then (.enotempty, s)
        else (.ok, { s with tree := Function.update s.tree p none })

/-- With all that is below. -/
def deleteRecursive (path : Bytes) : VfsStatus × FileTree :=
  match parsePath path with
  | .error rc => (rc, s)
  | .ok p =>
    if p = [] then (.eperm, s)
    else
      match s.tree p with
      | none => (.enotfound, s)
      | some e =>
        if e.allows cred writeBit = false then (.eperm, s)
        else (.ok, { s with tree := restrict (fun q => decide (¬ p <+: q)) s.tree })

open Classical in
/-- An entry with all that is below it; a file or an empty directory that is in its new place is replaced. -/
noncomputable def rename (oldPath newPath : Bytes) : VfsStatus × FileTree :=
  match parsePath oldPath, parsePath newPath with
  | .error rc, _ => (rc, s)
  | .ok _, .error rc => (rc, s)
  | .ok old, .ok new =>
    if old = [] ∨ new = [] then (.eperm, s)
    else if ¬ GoodNames new then (.ebadpath, s)
    else if old = new then (.ok, s)
    else if old <+: new then (.ebadpath, s)
    else
      match s.tree old with
      | none => (.enotfound, s)
      | some e =>
        if e.allows cred writeBit = false then (.eperm, s)
        else if (∃ d, s.tree new = some d ∧ d.type = .dir) ∧ s.HasBelow new then (.enotempty, s)
        else if s.checkDir new.dropLast false ≠ .ok then (s.checkDir new.dropLast false, s)
        else (.ok, { s with tree := move old new (fun _ e => { e with mtime := now }) s.tree })

/-- A file is read and written. -/
noncomputable def copy (srcPath dstPath : Bytes) (createParents : Bool) : VfsStatus × FileTree :=
  match parsePath srcPath with
  | .error rc => (rc, s)
  | .ok p =>
    match s.tree p with
    | none => (.enotfound, s)
    | some e =>
      if e.type = .dir then (.eisdir, s)
      else if e.allows cred readBit = false then (.eperm, s)
      else s.write cred now dstPath e.data createParents

/-- By an administrator alone. -/
def chmod (path : Bytes) (mode : BitVec 32) : VfsStatus × FileTree :=
  if cred.isAdmin = false then (.eperm, s)
  else
    match parsePath path with
    | .error rc => (rc, s)
    | .ok p =>
      match s.tree p with
      | none => (.enotfound, s)
      | some e =>
        (.ok, { s with tree := Function.update s.tree p (some { e with mode := mode &&& 0o777#32, mtime := now }) })

/-! ## Looks -/

def stat (path : Bytes) : Except VfsStatus (List Bytes × FileEntry) :=
  match parsePath path with
  | .error rc => .error rc
  | .ok p =>
    match s.get p with
    | none => .error .enotfound
    | some e => if e.allows cred readBit = false then .error .eperm else .ok (p, e)

def read (path : Bytes) : Except VfsStatus Bytes :=
  match parsePath path with
  | .error rc => .error rc
  | .ok p =>
    match s.tree p with
    | none => .error .enotfound
    | some e =>
      if e.type = .dir then .error .eisdir
      else if e.allows cred readBit = false then .error .eperm
      else .ok e.data

/-- What is in a directory, each under its name. -/
def list (path : Bytes) : Except VfsStatus (List Bytes × Set (Bytes × FileEntry)) :=
  match parsePath path with
  | .error rc => .error rc
  | .ok p =>
    match s.get p with
    | none => .error .enotfound
    | some e =>
      if e.type ≠ .dir then .error .enotdir
      else if e.allows cred readBit = false then .error .eperm
      else .ok (p, { child | s.tree (p ++ [child.1]) = some child.2 })

end FileTree

end Smolvfs
