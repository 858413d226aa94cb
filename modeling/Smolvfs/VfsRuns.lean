import Smolvfs.VfsInv

/-!
# Runs of the virtual filesystem

`vfs_runs_ok`: from a new filesystem on, whatever is called, the stored paths are in
normal form and distinct, each under a stored directory or the root, the usage counter
is the sum of the file sizes and within the quota, and a call that returns an error
has changed nothing.
-/

namespace Smolvfs

open Octets Keyed Names PathTree

/-- A call that may change the filesystem. -/
inductive VfsCall
  | write (path data : Bytes) (createParents : Bool)
  | mkdir (path : Bytes) (createParents : Bool)
  | delete (path : Bytes)
  | deleteRecursive (path : Bytes)
  | rename (oldPath newPath : Bytes)
  | copy (srcPath dstPath : Bytes) (createParents : Bool)

/-- What the call returns and leaves. -/
def VfsCall.run (flt : VfsFaults) (cred : VfsCred) (now : Int) (fs : Vfs) : VfsCall → VfsStatus × Vfs
  | .write path data createParents => vfsWrite flt fs cred path data createParents now
  | .mkdir path createParents => vfsMkdir flt fs cred path createParents now
  | .delete path => vfsDelete fs cred path
  | .deleteRecursive path => vfsDeleteRecursive fs cred path
  | .rename oldPath newPath => vfsRename flt fs cred oldPath newPath now
  | .copy srcPath dstPath createParents => vfsCopy flt fs cred srcPath dstPath createParents now

/-- How much the call stores. -/
def VfsCall.bytes (fs : Vfs) : VfsCall → Nat
  | .write _ data _ => data.length
  | .copy srcPath _ _ =>
    match vfsNormalize VFS_PATH_MAX srcPath with
    | .error _ => 0
    | .ok snorm => ((nodeAt fs snorm).map VfsNode.size).getD 0
  | _ => 0

/-- What is stored and what the call adds are less than 2^63 together. -/
def VfsCall.Fits (fs : Vfs) (c : VfsCall) : Prop := fileBytes fs.nodes + c.bytes fs < 2 ^ 63

instance (fs : Vfs) (c : VfsCall) : Decidable (c.Fits fs) := inferInstanceAs (Decidable (_ < _))

/-- The filesystems calls lead to, while memory does not run out. -/
inductive VfsRun (quota : Nat) (umask : BitVec 32) : Vfs → Prop
  | new : VfsRun quota umask (vfsNew quota umask)
  | call {fs : Vfs} (hr : VfsRun quota umask fs) (cred : VfsCred) (now : Int) (c : VfsCall) (hfit : c.Fits fs) :
    VfsRun quota umask (c.run noVfsFaults cred now fs).2

theorem vfsInv_new (quota : Nat) (umask : BitVec 32) : VfsInv (vfsNew quota umask) where
  shaped := shaped_nil
  usage := rfl
  fits := Nat.two_pow_pos 63
  quota := fun _ => Nat.zero_le _

/-- One call. -/
theorem VfsCall.outcome {fs : Vfs} (h : VfsInv fs) (cred : VfsCred) (now : Int) (c : VfsCall) (hfit : c.Fits fs) :
    Outcome fs (c.run noVfsFaults cred now fs) := by
  cases c with
  | write path data createParents => exact vfsWrite_outcome h cred now path data createParents hfit
  | mkdir path createParents => exact vfsMkdir_outcome h cred now path createParents
  | delete path => exact vfsDelete_outcome h cred path
  | deleteRecursive path => exact vfsDeleteRecursive_outcome h cred path
  | rename oldPath newPath => exact vfsRename_outcome h cred now oldPath newPath
  | copy srcPath dstPath createParents =>
    refine vfsCopy_outcome h cred now srcPath dstPath createParents fun snorm src hnorm hsrc => ?_
    have hb : (VfsCall.copy srcPath dstPath createParents).bytes fs = src.size := by
      simp only [VfsCall.bytes, hnorm, hsrc, Option.map_some, Option.getD_some]
    rw [← hb]
    exact hfit

/-- The invariant holds all along a run. -/
theorem VfsRun.inv {quota : Nat} {umask : BitVec 32} {fs : Vfs} (h : VfsRun quota umask fs) : VfsInv fs := by
  induction h with
  | new => exact vfsInv_new quota umask
  | call _ cred now c hfit ih =>
    rcases c.outcome ih cred now hfit with ⟨-, hinv⟩ | ⟨-, heq⟩
    · exact hinv
    · rwa [heq]

/-- **Whatever is called, the filesystem stays in order**, and an error leaves it as it was. -/
theorem vfs_runs_ok (quota : Nat) (umask : BitVec 32) (fs : Vfs) (h : VfsRun quota umask fs) :
    StoreOk fs ∧ ∀ (cred : VfsCred) (now : Int) (c : VfsCall), c.Fits fs → (c.run noVfsFaults cred now fs).1 ≠ .ok →
      (c.run noVfsFaults cred now fs).2 = fs := by
  refine ⟨h.inv.storeOk, fun cred now c hfit herr => ?_⟩
  rcases c.outcome h.inv cred now hfit with ⟨hok, -⟩ | ⟨-, heq⟩
  · exact absurd hok herr
  · exact heq

/-- A new filesystem after one write that creates a directory. -/
def oneWrite : Vfs :=
  ((VfsCall.write (lit ['/', 'a', '/', 'b']).bytes [1, 2] true).run noVfsFaults adminCred 0 (vfsNew 10 0#32)).2

theorem vfs_runs_ok_oneWrite : (oneWrite.nodes.length = 2 ∧ oneWrite.usage = 2) ∧ StoreOk oneWrite ∧
    ∀ (cred : VfsCred) (now : Int) (c : VfsCall), c.Fits oneWrite → (c.run noVfsFaults cred now oneWrite).1 ≠ .ok →
      (c.run noVfsFaults cred now oneWrite).2 = oneWrite :=
  ⟨by decide +kernel, vfs_runs_ok 10 0#32 oneWrite (.call .new adminCred 0 _ (by decide))⟩

end Smolvfs
