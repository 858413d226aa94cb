import Smolvfs.Fsck
import Smolvfs.VfsCalls

/-!
# Restoring a tree into the virtual filesystem

`restore_dir` and `vfs_snap_restore_at` of `vfs-snap.c`: the entries of a directory are
written and created at the path of the directory, a slash and the entry's name, which
the filesystem normalizes, and directories are gone into at that path.

`restore_at_confined`: nothing is touched outside of the base when every path that
is formed has its normal form there; and into a filesystem that has nothing outside,
a restore that succeeds touches nothing there only then.  A directory named `..` leads
out of the base (`restore_escapes`).
-/

namespace Smolvfs

open Octets Keyed Names PathTree

/-! ## The restore -/

def CAS_TREE_S_IFREG : BitVec 32 := 0o100000#32

/-- The entry's mode says that its child is a regular file. -/
def Entry.isReg (e : Entry) : Bool := e.mode &&& CAS_TREE_S_IFMT == CAS_TREE_S_IFREG

theorem type_of_mode (t m : BitVec 32) : (t ||| (m &&& 0o777#32)) &&& CAS_TREE_S_IFMT = t &&& CAS_TREE_S_IFMT := by
  have hzero : 0o777#32 &&& CAS_TREE_S_IFMT = 0#32 := by decide
  rw [BitVec.and_or_distrib_right, BitVec.and_assoc, hzero, BitVec.and_zero, BitVec.or_zero]

/-- `cas_open` -/
def casOpen (cs : Codecs) (flt : Faults) (st : Store) (hash : Bytes) : Except Status Bytes :=
  match casOpenObject cs flt st hash with
  | .error rc => .error rc
  | .ok (type, data) => if type = tBlob then .ok data else .error .etype

theorem casOpen_ne_ok (cs : Codecs) (flt : Faults) (st : Store) (hash : Bytes) :
    casOpen cs flt st hash ≠ .error .ok := by
  unfold casOpen
  split
  · next rc h =>
    rintro heq
    obtain rfl := Except.error.inj heq
    exact casOpenObject_ne_ok cs flt st hash h
  · split <;> simp

/-- What a part of a restore returns, and the filesystem then; none is a recursion that goes too deep. -/
abbrev Restored := Option Status × Vfs

section
variable (cs : Codecs) (flt : Faults) (st : Store) (vflt : VfsFaults) (cred : VfsCred) (now : Int)

/-- One entry of a directory; `child` is the restore of a directory. -/
def restoreEntry (child : Bytes → Bytes → Vfs → Restored) (dirpath : Bytes) (fs : Vfs) (e : Entry) : Restored :=
  if e.isReg then
    match casOpen cs flt st e.hash with
    | .error rc => (some rc, fs)
    | .ok data =>
      let r := vfsWrite vflt fs cred (childPath dirpath e.name) data true now
      (some (if r.1 = .ok then .ok else .err), r.2)
  else if e.isDir then
    let r := vfsMkdir vflt fs cred (childPath dirpath e.name) true now
    if r.1 ≠ .ok then (some .err, r.2) else child (childPath dirpath e.name) e.hash r.2
  else (some .ok, fs)

/-- The entries one after another, up to an error. -/
def restoreEntries (child : Bytes → Bytes → Vfs → Restored) (dirpath : Bytes) : Dir → Vfs → Restored
  | [], fs => (some .ok, fs)
  | e :: es, fs =>
    match restoreEntry cs flt st vflt cred now child dirpath fs e with
    | (some .ok, fs) => restoreEntries child dirpath es fs
    | r => r

/-- `restore_dir`; `fuel` bounds the depth. -/
def restoreDir : Nat → Bytes → Bytes → Vfs → Restored
  | 0, _, _, fs => (none, fs)
  | fuel + 1, dirpath, hash, fs =>
    match casTreeLoad cs flt st hash with
    | .error rc => (some rc, fs)
    | .ok dir => restoreEntries cs flt st vflt cred now (restoreDir fuel) dirpath dir fs

/-- `vfs_snap_restore` -/
def vfsSnapRestore (fuel : Nat) (fs : Vfs) (root : Bytes) : Restored :=
  restoreDir cs flt st vflt cred now fuel [47] root fs

/-- The base path without its trailing slashes. -/
def stripSlashes (base : Bytes) : Bytes :=
  let s := (base.reverse.dropWhile (· == 47)).reverse
  if s = [] then base.take 1 else s

/-- `vfs_snap_restore_at` -/
def vfsSnapRestoreAt (fuel : Nat) (fs : Vfs) (base root : Bytes) : Restored :=
  if base.head? ≠ some 47 then (some .err, fs)
  else
    let r := vfsMkdir vflt fs cred base true now
    if r.1 ≠ .ok then (some .err, r.2)
    else if (stripSlashes base).length ≥ VFS_PATH_MAX then (some .err, r.2)
    else restoreDir cs flt st vflt cred now fuel (stripSlashes base) root r.2

end

/-! ## Outside of a base -/

/-- Strictly below a directory, which may be the root. -/
def strictlyBelow (dir p : Bytes) : Bool := if dir = [47] then p.head? == some 47 && p != [47] else pathBelow dir p

/-- Neither the base, nor above it, nor below it. -/
def outside (base p : Bytes) : Bool := p != base && !strictlyBelow base p && !strictlyBelow p base

/-- The nodes outside of the base are what they were. -/
def Frame (base : Bytes) (fs fs' : Vfs) : Prop :=
  fs'.nodes.filter (fun n => outside base n.path) = fs.nodes.filter fun n => outside base n.path

instance (base : Bytes) (fs fs' : Vfs) : Decidable (Frame base fs fs') := inferInstanceAs (Decidable (_ = _))

theorem strictlyBelow_pathOf (a b : List Bytes) (ha : Components a) (hb : Components b) :
    strictlyBelow (pathOf a) (pathOf b) = true ↔ Below a b := by
  unfold strictlyBelow
  by_cases hroot : pathOf a = [47]
  · rw [if_pos hroot]
    obtain rfl := (pathOf_eq_root a ha.names).mp hroot
    have hhead : (pathOf b).head? = some 47 := by
      cases b with
      | nil => rfl
      | cons c cs => simp [pathOf]
    rw [hhead, Bool.and_eq_true, bne_iff_ne]
    constructor
    · rintro ⟨-, hne⟩
      cases b with
      | nil => exact absurd rfl hne
      | cons c cs => exact ⟨c, cs, rfl⟩
    · rintro ⟨c, cs, rfl⟩
      refine ⟨by simp, fun heq => ?_⟩
      have := (pathOf_eq_root _ hb.names).mp heq
      simp at this
  · rw [if_neg hroot]
    have hne : a ≠ [] := fun hnil => hroot ((pathOf_eq_root a ha.names).mpr hnil)
    exact pathBelow_pathOf a b ha.names hb.names hne

/-- Not outside is on the way to the base, or beyond it. -/
theorem outside_pathOf (b q : List Bytes) (hb : Components b) (hq : Components q) :
    outside (pathOf b) (pathOf q) = false ↔ q <+: b ∨ b <+: q := by
  have h1 := strictlyBelow_pathOf b q hb hq
  have h2 := strictlyBelow_pathOf q b hq hb
  rw [below_iff] at h1 h2
  unfold outside
  rw [← Bool.not_eq_true, Bool.and_eq_true, Bool.and_eq_true, bne_iff_ne, Bool.not_eq_true', Bool.not_eq_true',
    ← Bool.not_eq_true, ← Bool.not_eq_true, h1, h2]
  constructor
  · intro h
    by_contra hno
    rw [not_or] at hno
    refine h ⟨⟨fun heq => ?_, fun hbq => hno.2 hbq.1⟩, fun hqb => hno.1 hqb.1⟩
    exact hno.1 (by rw [pathOf_inj q b hq.names hb.names heq])
  · rintro (hpre | hpre) ⟨⟨hne, hbq⟩, hqb⟩
    · exact hqb ⟨hpre, fun heq => hne (by rw [heq])⟩
    · exact hbq ⟨hpre, fun heq => hne (by rw [heq])⟩

/-- What is above a path that is not outside is not outside either. -/
theorem outside_above (b q p : List Bytes) (hb : Components b) (hq : Components q) (hp : p <+: q)
    (h : outside (pathOf b) (pathOf q) = false) : outside (pathOf b) (pathOf p) = false := by
  have hpc : Components p := by
    obtain ⟨rest, rfl⟩ := hp
    exact ((components_append p rest).mp hq).1
  rw [outside_pathOf b q hb hq] at h
  rw [outside_pathOf b p hb hpc]
  rcases h with h | h
  · exact .inl (hp.trans h)
  · exact List.prefix_or_prefix_of_prefix hp h

/-! ## What a call touches -/

/-- What a call for a path does to the nodes: directories above it are appended, and at the path a node is
overwritten or appended. -/
structure StoredAt (fs : Vfs) (r : VfsStatus × Vfs) (comps : List Bytes) (c : Bytes) : Prop where
  normal : Components (comps ++ [c])
  nodes : ∃ fs1 added, Grown fs fs1 comps added ∧
    (r.2.nodes = fs1.nodes ∨
      (∃ i n m, fs1.nodes[i]? = some n ∧ n.path = pathOf (comps ++ [c]) ∧ m.path = n.path ∧
        r.2.nodes = fs1.nodes.set i m) ∨
      ∃ m, m.path = pathOf (comps ++ [c]) ∧ r.2.nodes = fs1.nodes ++ [m])
  stored : r.1 = .ok → pathOf (comps ++ [c]) ∈ r.2.nodes.map VfsNode.path

/-- A call changes nothing, or it stores at the normal form of its path. -/
def CallAt (fs : Vfs) (r : VfsStatus × Vfs) (path : Bytes) : Prop :=
  (r.2 = fs ∧ (r.1 = .ok → vfsNormalize VFS_PATH_MAX path = .ok [47])) ∨
    ∃ comps c, vfsNormalize VFS_PATH_MAX path = .ok (pathOf (comps ++ [c])) ∧ StoredAt fs r comps c

theorem CallAt.error {fs : Vfs} {path : Bytes} {rc : VfsStatus} (h : rc ≠ .ok) : CallAt fs (rc, fs) path :=
  .inl ⟨rfl, fun hok => absurd hok h⟩

/-- A call that fails once it has got to its parents. -/
theorem CallAt.failed {path : Bytes} {comps : List Bytes} {c : Bytes} (hp : Placed path comps c) {fs fs1 : Vfs}
    {rc : VfsStatus} (h : rc ≠ .ok) (hg : ∃ added, Grown fs fs1 comps added) : CallAt fs (rc, fs1) path := by
  obtain ⟨added, hg⟩ := hg
  exact .inr ⟨comps, c, hp.norm, hp.all, ⟨fs1, added, hg, .inl rfl⟩, fun hok => absurd hok h⟩

/-- A call that appends a node. -/
theorem CallAt.appended {path : Bytes} {comps : List Bytes} {c : Bytes} (hp : Placed path comps c) {fs fs1 : Vfs}
    {r : VfsStatus × Vfs} {m : VfsNode} (hg : ∃ added, Grown fs fs1 comps added) (hm : m.path = pathOf (comps ++ [c]))
    (hr : r.2.nodes = fs1.nodes ++ [m]) : CallAt fs r path := by
  obtain ⟨added, hg⟩ := hg
  refine .inr ⟨comps, c, hp.norm, hp.all, ⟨fs1, added, hg, .inr (.inr ⟨m, hm, hr⟩)⟩, fun _ => ?_⟩
  rw [hr]
  exact List.mem_map.mpr ⟨m, List.mem_append_right _ (List.mem_singleton_self _), hm⟩

theorem vfsWrite_callAt (flt : VfsFaults) (fs : Vfs) (cred : VfsCred) (path data : Bytes) (createParents : Bool)
    (now : Int) : CallAt fs (vfsWrite flt fs cred path data createParents now) path := by
  have hstep := vfsWrite_step flt fs cred path data createParents now
  generalize vfsWrite flt fs cred path data createParents now = r at hstep ⊢
  cases hstep with
  | refused h => exact CallAt.error h
  | parents hp hrun h => exact .failed hp h (hp.grown hrun)
  | memory hp hrun hflt => exact .failed hp (by simp) (hp.grown hrun)
  | @replaced comps c hp fs1 hrun i n hi hnode hfile hperm hquota =>
    obtain ⟨added, hg⟩ := hp.grown hrun
    obtain ⟨-, hpath⟩ := nodeAt_some hnode
    obtain ⟨hlt, -⟩ := List.getElem?_eq_some_iff.mp (hg.getElem? hi)
    refine .inr ⟨comps, c, hp.norm, hp.all, ⟨fs1, added, hg, .inr (.inl ?_)⟩, fun _ => ?_⟩
    · exact ⟨i, n, { n with data := data, mtime := now }, hg.getElem? hi, hpath, rfl, rfl⟩
    · exact List.mem_map.mpr ⟨_, List.mem_set hlt _, hpath⟩
  | new hp hrun hnode hquota => exact .appended hp (hp.grown hrun) rfl rfl

theorem vfsMkdir_callAt (flt : VfsFaults) (fs : Vfs) (cred : VfsCred) (path : Bytes) (createParents : Bool)
    (now : Int) : CallAt fs (vfsMkdir flt fs cred path createParents now) path := by
  have hstep := vfsMkdir_step flt fs cred path createParents now
  generalize vfsMkdir flt fs cred path createParents now = r at hstep ⊢
  cases hstep with
  | refused h => exact CallAt.error h
  | root hnorm => exact .inl ⟨rfl, fun _ => hnorm⟩
  | @there comps c hp n hnode hdir =>
    refine .inr ⟨comps, c, hp.norm, hp.all, ⟨fs, [], Grown.refl fs comps, .inl rfl⟩, fun _ => ?_⟩
    obtain ⟨hmem, hpath⟩ := nodeAt_some hnode
    exact List.mem_map.mpr ⟨n, hmem, hpath⟩
  | parents hp hrun h => exact .failed hp h (hp.grown hrun)
  | memory hp hrun hflt => exact .failed hp (by simp) (hp.grown hrun)
  | new hp hrun hnode => exact .appended hp (hp.grown hrun) rfl rfl

/-- What holds of the old paths, and of the call's path and those above it, holds of all paths afterwards. -/
theorem StoredAt.each {P : Bytes → Prop} {fs : Vfs} {r : VfsStatus × Vfs} {comps : List Bytes} {c : Bytes}
    (h : StoredAt fs r comps c) (hnew : ∀ p, p ≠ [] → p <+: comps ++ [c] → P (pathOf p))
    (hold : ∀ n ∈ fs.nodes, P n.path) : ∀ n ∈ r.2.nodes, P n.path := by
  obtain ⟨fs1, added, hg, hnodes⟩ := h.nodes
  have hgrown : ∀ n ∈ fs1.nodes, P n.path := by
    intro n hn
    rw [hg.eq] at hn
    rcases List.mem_append.mp hn with hn | hn
    · exact hold n hn
    · obtain ⟨-, -, p, hne, hpre, hp⟩ := hg.dirs n hn
      rw [hp]
      exact hnew p hne (hpre.trans (List.prefix_append _ _))
  intro x hx
  rcases hnodes with heq | ⟨i, n, m, hi, -, hm, heq⟩ | ⟨m, hm, heq⟩
  · rw [heq] at hx
    exact hgrown x hx
  · rw [heq] at hx
    rcases List.mem_or_eq_of_mem_set hx with hx | rfl
    · exact hgrown x hx
    · rw [hm]
      exact hgrown n (List.mem_of_getElem? hi)
  · rw [heq] at hx
    rcases List.mem_append.mp hx with hx | hx
    · exact hgrown x hx
    · rw [List.mem_singleton.mp hx, hm]
      exact hnew _ (by simp) (List.prefix_refl _)

/-- Overwriting what is filtered out does not show. -/
theorem filter_set {α : Type} (p : α → Bool) (l : List α) (i : Nat) (a b : α) (hi : l[i]? = some a)
    (ha : p a = false) (hb : p b = false) : (l.set i b).filter p = l.filter p := by
  induction l generalizing i with
  | nil => simp at hi
  | cons x l ih =>
    cases i with
    | zero =>
      obtain rfl : x = a := by simpa using hi
      rw [List.set_cons_zero, List.filter_cons_of_neg (by simp [hb]), List.filter_cons_of_neg (by simp [ha])]
    | succ i =>
      rw [List.set_cons_succ, List.filter_cons, List.filter_cons, ih i (by simpa using hi)]

/-- **A call for a path that is not outside leaves alone what is.** -/
theorem CallAt.frame {fs : Vfs} {r : VfsStatus × Vfs} {path : Bytes} (h : CallAt fs r path) (b : List Bytes)
    (hb : Components b) (hin : ∀ norm, vfsNormalize VFS_PATH_MAX path = .ok norm → outside (pathOf b) norm = false) :
    Frame (pathOf b) fs r.2 := by
  unfold Frame
  rcases h with ⟨heq, -⟩ | ⟨comps, c, hnorm, hat⟩
  · rw [heq]
  · have hself := hin _ hnorm
    obtain ⟨fs1, added, hg, hnodes⟩ := hat.nodes
    have hadded : added.filter (fun n => outside (pathOf b) n.path) = [] := by
      rw [List.filter_eq_nil_iff]
      intro n hn
      obtain ⟨-, -, p, -, hpre, hpath⟩ := hg.dirs n hn
      rw [hpath, outside_above b (comps ++ [c]) p hb hat.normal (hpre.trans (List.prefix_append _ _)) hself]
      simp
    have hgrown : fs1.nodes.filter (fun n => outside (pathOf b) n.path) =
        fs.nodes.filter fun n => outside (pathOf b) n.path := by
      rw [hg.eq]
      show (fs.nodes ++ added).filter _ = _
      rw [List.filter_append, hadded, List.append_nil]
    rcases hnodes with heq | ⟨i, n, m, hi, hn, hm, heq⟩ | ⟨m, hm, heq⟩
    · rw [heq, hgrown]
    · rw [heq, filter_set _ _ i n m hi (by rw [hn]; exact hself) (by rw [hm, hn]; exact hself), hgrown]
    · rw [heq, List.filter_append, hgrown, List.filter_cons_of_neg (by rw [hm, hself]; simp), List.filter_nil,
        List.append_nil]

/-- No node goes away. -/
theorem CallAt.keeps {fs : Vfs} {r : VfsStatus × Vfs} {path : Bytes} (h : CallAt fs r path) :
    fs.nodes.map VfsNode.path ⊆ r.2.nodes.map VfsNode.path := by
  rcases h with ⟨heq, -⟩ | ⟨comps, c, hnorm, hat⟩
  · rw [heq]
    exact List.Subset.refl _
  · obtain ⟨fs1, added, hg, hnodes⟩ := hat.nodes
    have hgrown : fs.nodes.map VfsNode.path ⊆ fs1.nodes.map VfsNode.path := by
      rw [hg.eq]
      show _ ⊆ (fs.nodes ++ added).map _
      rw [List.map_append]
      exact List.subset_append_left _ _
    refine List.Subset.trans hgrown ?_
    rcases hnodes with heq | ⟨i, n, m, hi, -, hm, heq⟩ | ⟨m, -, heq⟩
    · rw [heq]
      exact List.Subset.refl _
    · obtain ⟨hlt, hget⟩ := List.getElem?_eq_some_iff.mp hi
      have hsame : (fs1.nodes.set i m).map VfsNode.path = fs1.nodes.map VfsNode.path := by
        rw [List.map_set, hm, ← hget]
        refine List.ext_getElem (by simp) fun j h1 h2 => ?_
        by_cases hij : i = j
        · subst hij
          simp
        · simp [hij]
      rw [heq, hsame]
      exact List.Subset.refl _
    · rw [heq, List.map_append]
      exact List.subset_append_left _ _

/-! ## What a restore goes through -/

section
variable (cs : Codecs) (flt : Faults) (st : Store)

/-- The directories a restore comes to, each with the path it is gone into under. -/
inductive Comes (base root : Bytes) : Bytes → Bytes → Prop
  | root : Comes base root base root
  | dir {dirpath hash : Bytes} {dir : Dir} {e : Entry} (h : Comes base root dirpath hash)
      (hload : casTreeLoad cs flt st hash = .ok dir) (he : e ∈ dir) (hreg : e.isReg = false) (hdir : e.isDir = true) :
      Comes base root (childPath dirpath e.name) e.hash

/-- Every path that is formed for a file or a directory has its normal form in the base, or on the way to it. -/
def Confined (base root : Bytes) : Prop :=
  ∀ dirpath hash dir e, Comes cs flt st base root dirpath hash → casTreeLoad cs flt st hash = .ok dir → e ∈ dir →
    (e.isReg = true ∨ e.isDir = true) → ∀ norm, vfsNormalize VFS_PATH_MAX (childPath dirpath e.name) = .ok norm →
      outside base norm = false

variable (vflt : VfsFaults) (cred : VfsCred) (now : Int) {cs flt st}

theorem Frame.trans {base : Bytes} {fs1 fs2 fs3 : Vfs} (h : Frame base fs1 fs2) (h' : Frame base fs2 fs3) :
    Frame base fs1 fs3 := Eq.trans h' h

/-- The entries of a directory that is come to. -/
theorem restoreEntries_frame {base : List Bytes} {rootHash dirpath hash : Bytes} {dir : Dir}
    (hb : Components base) (hconf : Confined cs flt st (pathOf base) rootHash)
    (hcomes : Comes cs flt st (pathOf base) rootHash dirpath hash) (hload : casTreeLoad cs flt st hash = .ok dir)
    (child : Bytes → Bytes → Vfs → Restored)
    (hchild : ∀ p h fs, Comes cs flt st (pathOf base) rootHash p h → Frame (pathOf base) fs (child p h fs).2)
    (es : Dir) (hes : es ⊆ dir) (fs : Vfs) :
    Frame (pathOf base) fs (restoreEntries cs flt st vflt cred now child dirpath es fs).2 := by
  induction es generalizing fs with
  | nil => rfl
  | cons e es ih =>
    have he : e ∈ dir := hes (by simp)
    have hone : Frame (pathOf base) fs (restoreEntry cs flt st vflt cred now child dirpath fs e).2 := by
      unfold restoreEntry
      split
      · next hreg =>
        split
        · rfl
        · exact (vfsWrite_callAt vflt fs cred _ _ true now).frame base hb
            (hconf dirpath hash dir e hcomes hload he (.inl hreg))
      · next hreg =>
        split
        · next hdir =>
          have hmk := (vfsMkdir_callAt vflt fs cred (childPath dirpath e.name) true now).frame base hb
            (hconf dirpath hash dir e hcomes hload he (.inr hdir))
          simp only []
          split
          · exact hmk
          · exact hmk.trans (hchild _ _ _ (.dir hcomes hload he (by simpa using hreg) hdir))
        · rfl
    unfold restoreEntries
    split
    · next fs1 hrun =>
      rw [hrun] at hone
      exact hone.trans (ih (fun x hx => hes (by simp [hx])) fs1)
    · exact hone

/-- **A confined restore leaves alone what is outside**, however far it comes. -/
theorem restoreDir_frame {base : List Bytes} {rootHash : Bytes} (hb : Components base)
    (hconf : Confined cs flt st (pathOf base) rootHash) (fuel : Nat) (dirpath hash : Bytes) (fs : Vfs)
    (hcomes : Comes cs flt st (pathOf base) rootHash dirpath hash) :
    Frame (pathOf base) fs (restoreDir cs flt st vflt cred now fuel dirpath hash fs).2 := by
  induction fuel generalizing dirpath hash fs with
  | zero => rfl
  | succ fuel ih =>
    unfold restoreDir
    split
    · rfl
    · next dir hload =>
      exact restoreEntries_frame vflt cred now hb hconf hcomes hload _ (fun p h fs hc => ih p h fs hc) dir
        (List.Subset.refl _) fs

/-! ## What a restore leaves behind -/

/-- The paths that are stored. -/
def paths (fs : Vfs) : List Bytes := fs.nodes.map VfsNode.path

/-- What writing and creating make of a filesystem, a restore does. -/
structure Carrying (vflt : VfsFaults) (cred : VfsCred) (now : Int) (R : Vfs → Vfs → Prop) : Prop where
  refl : ∀ fs, R fs fs
  trans : ∀ fs1 fs2 fs3, R fs1 fs2 → R fs2 fs3 → R fs1 fs3
  write : ∀ fs path data, R fs (vfsWrite vflt fs cred path data true now).2
  mkdir : ∀ fs path, R fs (vfsMkdir vflt fs cred path true now).2

section
variable {vflt cred now} {R : Vfs → Vfs → Prop} (hR : Carrying vflt cred now R)

include hR

theorem Carrying.entry (child : Bytes → Bytes → Vfs → Restored) (hchild : ∀ p h fs, R fs (child p h fs).2)
    (dirpath : Bytes) (fs : Vfs) (e : Entry) :
    R fs (restoreEntry cs flt st vflt cred now child dirpath fs e).2 := by
  unfold restoreEntry
  split
  · split
    · exact hR.refl fs
    · exact hR.write fs _ _
  · split
    · have hmk := hR.mkdir fs (childPath dirpath e.name)
      simp only []
      split
      · exact hmk
      · exact hR.trans _ _ _ hmk (hchild _ _ _)
    · exact hR.refl fs

theorem Carrying.entries (child : Bytes → Bytes → Vfs → Restored) (hchild : ∀ p h fs, R fs (child p h fs).2)
    (dirpath : Bytes) (es : Dir) (fs : Vfs) :
    R fs (restoreEntries cs flt st vflt cred now child dirpath es fs).2 := by
  induction es generalizing fs with
  | nil => exact hR.refl fs
  | cons e es ih =>
    have hone : R fs (restoreEntry cs flt st vflt cred now child dirpath fs e).2 := hR.entry child hchild dirpath fs e
    unfold restoreEntries
    split
    · next fs1 hrun =>
      rw [hrun] at hone
      exact hR.trans _ _ _ hone (ih fs1)
    · exact hone

theorem Carrying.dir (fuel : Nat) (dirpath hash : Bytes) (fs : Vfs) :
    R fs (restoreDir cs flt st vflt cred now fuel dirpath hash fs).2 := by
  induction fuel generalizing dirpath hash fs with
  | zero => exact hR.refl fs
  | succ fuel ih =>
    unfold restoreDir
    split
    · exact hR.refl fs
    · exact hR.entries _ ih dirpath _ fs

end

/-- What every call makes of a filesystem, a restore does. -/
structure Carried (R : Vfs → Vfs → Prop) : Prop where
  refl : ∀ fs, R fs fs
  trans : ∀ fs1 fs2 fs3, R fs1 fs2 → R fs2 fs3 → R fs1 fs3
  call : ∀ fs r path, CallAt fs r path → R fs r.2

theorem Carried.carrying {R : Vfs → Vfs → Prop} (hR : Carried R) : Carrying vflt cred now R where
  refl := hR.refl
  trans := hR.trans
  write fs path data := hR.call fs _ path (vfsWrite_callAt vflt fs cred path data true now)
  mkdir fs path := hR.call fs _ path (vfsMkdir_callAt vflt fs cred path true now)

theorem Carried.dir {R : Vfs → Vfs → Prop} (hR : Carried R) (fuel : Nat) (dirpath hash : Bytes) (fs : Vfs) :
    R fs (restoreDir cs flt st vflt cred now fuel dirpath hash fs).2 :=
  (hR.carrying vflt cred now).dir fuel dirpath hash fs

theorem carried_paths : Carried fun fs fs' => paths fs ⊆ paths fs' where
  refl _ := List.Subset.refl _
  trans _ _ _ := List.Subset.trans
  call _ _ _ h := h.keeps

theorem restoreDir_paths (fuel : Nat) (dirpath hash : Bytes) (fs : Vfs) :
    paths fs ⊆ paths (restoreDir cs flt st vflt cred now fuel dirpath hash fs).2 :=
  carried_paths.dir vflt cred now fuel dirpath hash fs

/-- Entries that succeed together each succeed, and what they leave stays. -/
theorem restoreEntries_each (child : Bytes → Bytes → Vfs → Restored)
    (hchild : ∀ p h fs, paths fs ⊆ paths (child p h fs).2) (dirpath : Bytes) (es : Dir) (fs fs' : Vfs)
    (h : restoreEntries cs flt st vflt cred now child dirpath es fs = (some .ok, fs')) (e : Entry) (he : e ∈ es) :
    ∃ fs1 fs2, restoreEntry cs flt st vflt cred now child dirpath fs1 e = (some .ok, fs2) ∧ paths fs2 ⊆ paths fs' := by
  induction es generalizing fs with
  | nil => cases he
  | cons x es ih =>
    unfold restoreEntries at h
    split at h
    · next fs1 hrun =>
      rcases List.mem_cons.mp he with rfl | he
      · have hrest : paths fs1 ⊆ paths (restoreEntries cs flt st vflt cred now child dirpath es fs1).2 :=
          (carried_paths.carrying vflt cred now).entries child hchild dirpath es fs1
        rw [h] at hrest
        exact ⟨fs, fs1, hrun, hrest⟩
      · exact ih fs1 h he
    · next hno =>
      exact absurd h (hno fs')

/-- **A restore that succeeds has gone into every directory it comes to.** -/
theorem restoreDir_comes {fuel : Nat} {base rootHash : Bytes} {fs fs' : Vfs}
    (h : restoreDir cs flt st vflt cred now fuel base rootHash fs = (some .ok, fs')) {dirpath hash : Bytes}
    (hcomes : Comes cs flt st base rootHash dirpath hash) :
    ∃ fuel1 fs1 fs2, restoreDir cs flt st vflt cred now fuel1 dirpath hash fs1 = (some .ok, fs2) ∧
      paths fs2 ⊆ paths fs' := by
  induction hcomes with
  | root => exact ⟨fuel, fs, fs', h, List.Subset.refl _⟩
  | @dir dirpath hash dir e hc hload he hreg hdir ih =>
    obtain ⟨fuel1, fs1, fs2, hrun, hsub⟩ := ih
    cases fuel1 with
    | zero => cases (Prod.mk.inj hrun).1
    | succ fuel1 =>
      unfold restoreDir at hrun
      rw [hload] at hrun
      obtain ⟨fs3, fs4, hentry, hsub'⟩ := restoreEntries_each vflt cred now _ (restoreDir_paths vflt cred now fuel1)
        dirpath dir fs1 fs2 hrun e he
      unfold restoreEntry at hentry
      rw [if_neg (by simp [hreg]), if_pos hdir] at hentry
      simp only [] at hentry
      split at hentry
      · cases (Prod.mk.inj hentry).1
      · exact ⟨fuel1, _, fs4, hentry, List.Subset.trans hsub' hsub⟩

/-- What a call that succeeds stores, it stores at the normal form of its path. -/
theorem CallAt.stored {fs : Vfs} {r : VfsStatus × Vfs} {path norm : Bytes} (h : CallAt fs r path) (hok : r.1 = .ok)
    (hnorm : vfsNormalize VFS_PATH_MAX path = .ok norm) : norm = [47] ∨ norm ∈ paths r.2 := by
  rcases h with ⟨-, hroot⟩ | ⟨comps, c, hnorm', hat⟩
  · exact .inl (Except.ok.inj (hnorm.symm.trans (hroot hok)))
  · obtain rfl := Except.ok.inj (hnorm.symm.trans hnorm')
    exact .inr (hat.stored hok)

/-- An entry that is restored is at the normal form of its path. -/
theorem restoreEntry_stored (child : Bytes → Bytes → Vfs → Restored)
    (hchild : ∀ p h fs, paths fs ⊆ paths (child p h fs).2) (dirpath : Bytes) (fs fs' : Vfs) (e : Entry)
    (h : restoreEntry cs flt st vflt cred now child dirpath fs e = (some .ok, fs'))
    (ht : e.isReg = true ∨ e.isDir = true)
    (norm : Bytes) (hnorm : vfsNormalize VFS_PATH_MAX (childPath dirpath e.name) = .ok norm) :
    norm = [47] ∨ norm ∈ paths fs' := by
  unfold restoreEntry at h
  split at h
  · split at h
    · next rc hopen =>
      obtain ⟨hrc, rfl⟩ := Prod.mk.inj h
      have := casOpen_ne_ok cs flt st e.hash
      rw [hopen, Option.some.inj hrc] at this
      exact absurd rfl this
    · next data _ =>
      have hat := vfsWrite_callAt vflt fs cred (childPath dirpath e.name) data true now
      obtain ⟨hrc, rfl⟩ := Prod.mk.inj h
      refine hat.stored ?_ hnorm
      by_contra hne
      rw [if_neg hne] at hrc
      cases hrc
  · next hreg =>
    split at h
    · have hat := vfsMkdir_callAt vflt fs cred (childPath dirpath e.name) true now
      simp only [] at h
      split at h
      · cases (Prod.mk.inj h).1
      · next hok =>
        rcases hat.stored (not_not.mp hok) hnorm with hroot | hmem
        · exact .inl hroot
        · have hsub :=
            hchild (childPath dirpath e.name) e.hash (vfsMkdir vflt fs cred (childPath dirpath e.name) true now).2
          rw [h] at hsub
          exact .inr (hsub hmem)
    · next hdir => exact absurd ht (by simp [hreg, hdir])

end

/-! ## The base -/

theorem getLast_component (comps : List Bytes) (c : Bytes) (h : IsName 47 c) :
    ∃ init last, pathOf (comps ++ [c]) = init ++ [last] ∧ last ≠ 47 := by
  obtain ⟨init, last, hcat⟩ := (List.eq_nil_or_concat c).resolve_left h.1
  rw [List.concat_eq_append] at hcat
  refine ⟨join 47 comps ++ 47 :: init, last, ?_, ?_⟩
  · rw [pathOf_ne_nil _ (by simp), join_concat, hcat]
    simp
  · rintro rfl
    exact h.2 (by simp [hcat])

/-- A base in normal form has no trailing slashes to take off. -/
theorem stripSlashes_pathOf (comps : List Bytes) (h : Components comps) :
    stripSlashes (pathOf comps) = pathOf comps := by
  rcases List.eq_nil_or_concat comps with rfl | ⟨init, last, hcat⟩
  · rfl
  · rw [List.concat_eq_append] at hcat
    subst hcat
    obtain ⟨p, x, hp, hx⟩ := getLast_component init last (h.names last (by simp))
    unfold stripSlashes
    have hrev : (pathOf (init ++ [last])).reverse = x :: p.reverse := by
      rw [hp]
      simp
    rw [hrev, List.dropWhile_cons_of_neg (by simpa using hx), ← hrev, List.reverse_reverse]
    simp only []
    rw [if_neg (by rw [hp]; simp)]

/-- A path that `vfs_normalize` leaves as it is. -/
theorem pathOf_of_normalized {base : Bytes} (h : vfsNormalize VFS_PATH_MAX base = .ok base) :
    ∃ b, Components b ∧ base = pathOf b ∧ base.length < VFS_PATH_MAX := by
  obtain ⟨hp, hlen⟩ := vfsNormalize_ok _ base base h
  exact ⟨_, pathComponents_ok base, hp, by omega⟩

section
variable (cs : Codecs) (flt : Faults) (st : Store) (base root : Bytes)
  (hbase : vfsNormalize VFS_PATH_MAX base = .ok base)

include hbase

theorem outside_base : outside base base = false := by
  obtain ⟨b, hb, rfl, -⟩ := pathOf_of_normalized hbase
  exact (outside_pathOf b b hb hb).mpr (.inl (List.prefix_refl _))

/-- The base is created first, and the rest goes on from there. -/
theorem vfsSnapRestoreAt_eq (vflt : VfsFaults) (cred : VfsCred) (now : Int) (fuel : Nat) (fs : Vfs) :
    vfsSnapRestoreAt cs flt st vflt cred now fuel fs base root =
      if (vfsMkdir vflt fs cred base true now).1 ≠ .ok then (some .err, (vfsMkdir vflt fs cred base true now).2)
      else restoreDir cs flt st vflt cred now fuel base root (vfsMkdir vflt fs cred base true now).2 := by
  obtain ⟨b, hb, hp, hlen⟩ := pathOf_of_normalized hbase
  have hhead : base.head? = some 47 := by
    rw [hp]
    cases b with
    | nil => rfl
    | cons c cs => simp [pathOf]
  have hstrip : stripSlashes base = base := by
    rw [hp]
    exact stripSlashes_pathOf b hb
  unfold vfsSnapRestoreAt
  rw [if_neg (by simp [hhead]), hstrip]
  simp only []
  split
  · rfl
  · rw [if_neg (by omega)]

theorem mkdirBase_frame (vflt : VfsFaults) (cred : VfsCred) (now : Int) (fs : Vfs) :
    Frame base fs (vfsMkdir vflt fs cred base true now).2 := by
  obtain ⟨b, hb, hp, -⟩ := pathOf_of_normalized hbase
  have hout := outside_base base hbase
  rw [hp] at hout ⊢
  refine (vfsMkdir_callAt vflt fs cred (pathOf b) true now).frame b hb fun norm hnorm => ?_
  rw [← hp] at hnorm
  obtain rfl := Except.ok.inj (hbase.symm.trans hnorm)
  rw [hp]
  exact hout

/-- **A restore stays in its base when it is confined**; and when it is not, it does not, if it succeeds on a
filesystem with nothing outside. -/
theorem restore_at_confined :
    (Confined cs flt st base root → ∀ (vflt : VfsFaults) (cred : VfsCred) (now : Int) (fuel : Nat) (fs : Vfs),
      Frame base fs (vfsSnapRestoreAt cs flt st vflt cred now fuel fs base root).2) ∧
    ∀ (vflt : VfsFaults) (cred : VfsCred) (now : Int) (fuel : Nat) (fs : Vfs),
      (∀ n ∈ fs.nodes, outside base n.path = false) →
      (vfsSnapRestoreAt cs flt st vflt cred now fuel fs base root).1 = some .ok →
      (Frame base fs (vfsSnapRestoreAt cs flt st vflt cred now fuel fs base root).2 ↔
        Confined cs flt st base root) := by
  have hframe : Confined cs flt st base root → ∀ (vflt : VfsFaults) (cred : VfsCred) (now : Int) (fuel : Nat)
    (fs : Vfs),
      Frame base fs (vfsSnapRestoreAt cs flt st vflt cred now fuel fs base root).2 := by
    intro hconf vflt cred now fuel fs
    have hmk := mkdirBase_frame base hbase vflt cred now fs
    rw [vfsSnapRestoreAt_eq cs flt st base root hbase]
    split
    · exact hmk
    · obtain ⟨b, hb, hp, -⟩ := pathOf_of_normalized hbase
      rw [hp] at hconf hmk ⊢
      exact hmk.trans (restoreDir_frame vflt cred now hb hconf fuel _ _ _ .root)
  refine ⟨hframe, fun vflt cred now fuel fs hempty hok =>
    ⟨fun hfr => ?_, fun hconf => hframe hconf vflt cred now fuel fs⟩⟩
  intro dirpath hash dir e hcomes hload he ht norm hnorm
  rw [vfsSnapRestoreAt_eq cs flt st base root hbase] at hok hfr
  split at hok
  · cases hok
  · next hmk =>
    rw [if_neg hmk] at hfr
    generalize hr : restoreDir cs flt st vflt cred now fuel base root (vfsMkdir vflt fs cred base true now).2 =
      r at hok hfr
    obtain ⟨rc, fs'⟩ := r
    obtain rfl : rc = some .ok := hok
    obtain ⟨fuel1, fs1, fs2, hrun, hsub⟩ := restoreDir_comes vflt cred now hr hcomes
    cases fuel1 with
    | zero => cases (Prod.mk.inj hrun).1
    | succ fuel1 =>
      unfold restoreDir at hrun
      rw [hload] at hrun
      obtain ⟨fs3, fs4, hentry, hsub'⟩ := restoreEntries_each vflt cred now _ (restoreDir_paths vflt cred now fuel1)
        dirpath dir fs1 fs2 hrun e he
      obtain ⟨b, hb, hp, -⟩ := pathOf_of_normalized hbase
      rcases restoreEntry_stored vflt cred now _ (restoreDir_paths vflt cred now fuel1) dirpath fs3 fs4 e hentry ht norm
        hnorm with rfl | hmem
      · rw [hp]
        exact (outside_pathOf b [] hb components_nil).mpr (.inl List.nil_prefix)
      · -- nothing is stored outside, so this is not
        have hin : norm ∈ paths fs' := hsub (hsub' hmem)
        obtain ⟨n, hn, rfl⟩ := List.mem_map.mp hin
        by_contra hout
        have hmem' : n ∈ fs'.nodes.filter fun n => outside base n.path :=
          List.mem_filter.mpr ⟨hn, by simpa using hout⟩
        unfold Frame at hfr
        rw [show fs'.nodes.filter _ = _ from hfr] at hmem'
        obtain ⟨hn', hout'⟩ := List.mem_filter.mp hmem'
        rw [hempty n hn'] at hout'
        cases hout'

end

/-! ## A way out -/

/-- A tree with one directory, named `..`, in which there is the file `x`. -/
def dotdotStore : Store :=
  ⟨((AList.singleton twoHash ⟨rawFile (tBlob, [1]), 0⟩).insert oneHash
      ⟨rawFile (tTree, treeSerialize [childEntry 0o100644#32 'x' twoHash]), 0⟩).insert zeroHash
      ⟨rawFile (tTree, treeSerialize [⟨0o040755#32, 0, 0, 0, 0, oneHash, lit ['.', '.']⟩]), 0⟩,
    fun _ => none, none⟩

/-- Where the tree is to go. -/
def modBase : Bytes := (lit ['/', 'm']).bytes

theorem modBase_normal : vfsNormalize VFS_PATH_MAX modBase = .ok modBase := by decide +kernel

/-- A tree of one file stays where it is to go, and this is what the result says of it. -/
theorem restore_at_confined_oneFile :
    (vfsSnapRestoreAt [] noFaults dotdotStore noVfsFaults adminCred 0 1 (vfsNew 0 0#32) modBase oneHash).1 = some .ok ∧
    (Frame modBase (vfsNew 0 0#32)
        (vfsSnapRestoreAt [] noFaults dotdotStore noVfsFaults adminCred 0 1 (vfsNew 0 0#32) modBase oneHash).2 ↔
      Confined [] noFaults dotdotStore modBase oneHash) := by
  have hok : (vfsSnapRestoreAt [] noFaults dotdotStore noVfsFaults adminCred 0 1 (vfsNew 0 0#32) modBase oneHash).1 =
      some .ok := by decide +kernel
  have hempty : ∀ n ∈ (vfsNew 0 0#32).nodes, outside modBase n.path = false := by
    intro n hn
    cases hn
  exact ⟨hok, (restore_at_confined [] noFaults dotdotStore modBase oneHash modBase_normal).2 noVfsFaults adminCred 0 1
    _ hempty hok⟩

/-- **The file goes beside the base**: the restore into `/m` creates `/x`. -/
theorem restore_escapes :
    (vfsSnapRestoreAt [] noFaults dotdotStore noVfsFaults adminCred 0 2 (vfsNew 0 0#32) modBase zeroHash).1 = some .ok ∧
    ¬ Frame modBase (vfsNew 0 0#32)
      (vfsSnapRestoreAt [] noFaults dotdotStore noVfsFaults adminCred 0 2 (vfsNew 0 0#32) modBase zeroHash).2 := by
  decide +kernel

end Smolvfs
