import Smolvfs.SnapStore
import Smolvfs.VfsAddress

/-!
# Committing a filesystem

`vfs_snap_commit`, `vfs_snap_checkout` and `vfs_snap_checkout_at` of `vfs-snap.c`, and what
edits and checkouts leave of a filesystem that can be committed.

`snapDir_left`: a snapshot takes nothing from the depot, wherever it fails.
-/

namespace Smolvfs

open Octets Keyed Names PathTree

/-! ## Committing and checking out -/

/-- The end of a commit: a snapshot that has been stored becomes the ref's root. -/
def commitSnapshot (r : Snapped Bytes) (refs : Refs) (ref comment : Bytes) (timeS timeNs : Int) :
    Option Status × CasTree :=
  match r with
  | (none, st) => (none, ⟨st, refs⟩)
  | (some (.error rc), st) => (some rc, ⟨st, refs⟩)
  | (some (.ok hash), st) =>
    match casTreeRefCommit refs ref hash comment timeS timeNs with
    | .error rc => (some rc, ⟨st, refs⟩)
    | .ok refs => (some .ok, ⟨st, refs⟩)

/-- `vfs_snap_commit` -/
def vfsSnapCommit (cs : Codecs) (cfg : CompressConfig) (flt : Faults) (fs : Vfs) (cred : VfsCred)
    (noMem noRoom : Nat → Bool) (useHtree : Bool) (now : Int) (fuel : Nat) (ct : CasTree) (ref comment : Bytes)
    (timeS timeNs : Int) : Option Status × CasTree :=
  commitSnapshot (vfsSnapStore cs cfg flt fs cred noMem noRoom useHtree now fuel ct.store) ct.refs ref comment timeS
    timeNs

section
variable {r : Snapped Bytes} {refs : Refs} {ref comment : Bytes} {timeS timeNs : Int}

/-- A commit that succeeds has stored a snapshot and committed it. -/
theorem commitSnapshot_ok (hr : r.1 ≠ some (.error .ok))
    (h : (commitSnapshot r refs ref comment timeS timeNs).1 = some .ok) :
    ∃ hash refs', r.1 = some (.ok hash) ∧ casTreeRefCommit refs ref hash comment timeS timeNs = .ok refs' ∧
      (commitSnapshot r refs ref comment timeS timeNs).2 = ⟨r.2, refs'⟩ := by
  obtain ⟨rc, st⟩ := r
  match rc with
  | none => cases h
  | some (.error rc) =>
    obtain rfl : rc = .ok := Option.some.inj h
    exact absurd rfl hr
  | some (.ok hash) =>
    unfold commitSnapshot at h ⊢
    simp only [] at h ⊢
    cases hrun : casTreeRefCommit refs ref hash comment timeS timeNs with
    | error rc =>
      rw [hrun] at h
      obtain rfl : rc = .ok := Option.some.inj h
      unfold casTreeRefCommit at hrun
      split at hrun <;> cases hrun
    | ok refs' => exact ⟨hash, refs', rfl, hrun, rfl⟩

/-- A commit that fails leaves the refs. -/
theorem commitSnapshot_failed (h : (commitSnapshot r refs ref comment timeS timeNs).1 ≠ some .ok) :
    (commitSnapshot r refs ref comment timeS timeNs).2 = ⟨r.2, refs⟩ := by
  obtain ⟨rc, st⟩ := r
  match rc with
  | none => rfl
  | some (.error rc) => rfl
  | some (.ok hash) =>
    unfold commitSnapshot at h ⊢
    simp only [] at h ⊢
    cases hrun : casTreeRefCommit refs ref hash comment timeS timeNs with
    | error rc => rfl
    | ok refs' =>
      rw [hrun] at h
      exact absurd rfl h

end

section
variable (cs : Codecs) (flt : Faults) (ct : CasTree) (vflt : VfsFaults) (cred : VfsCred) (now : Int) (fuel : Nat)

/-- `vfs_snap_checkout` -/
def vfsSnapCheckout (fs : Vfs) (ref : Bytes) : Restored :=
  match casTreeRefRead flt ct.refs ref with
  | .error rc => (some rc, fs)
  | .ok hash => vfsSnapRestore cs flt ct.store vflt cred now fuel fs hash

/-- `vfs_snap_checkout_at` -/
def vfsSnapCheckoutAt (fs : Vfs) (base ref : Bytes) : Restored :=
  match casTreeRefRead flt ct.refs ref with
  | .error rc => (some rc, fs)
  | .ok hash => vfsSnapRestoreAt cs flt ct.store vflt cred now fuel fs base hash

end

/-! ## The filesystem of a run -/

/-- A tree of paths that can be committed: every path is one `vfs_write` takes. -/
structure Committable (fs : Vfs) : Prop where
  shaped : Shaped fs.nodes
  taken : PathsTaken fs
  short : AllShort fs

theorem committable_new (quota : Nat) (umask : BitVec 32) : Committable (vfsNew quota umask) :=
  ⟨shaped_nil, fun _ hn => (nomatch hn), fun _ hn => (nomatch hn)⟩

theorem Committable.valid {fs : Vfs} (h : Committable fs) : ∀ n ∈ fs.nodes, validatePathComponents n.path = .ok :=
  fun n hn => (validate_iff (h.shaped.normal n hn)).mpr ⟨(h.short n hn).short, h.taken n hn⟩

/-- An edit whose renames take nothing to a path that is too long. -/
theorem Committable.edit {fs : Vfs} (h : Committable fs) (cred : VfsCred) (now : Int) (c : VfsCall)
    (hshort : StaysShort fs cred c) : Committable (c.run noVfsFaults cred now fs).2 where
  shaped := c.shaped h.shaped cred now
  short := c.short h.short noVfsFaults cred now hshort
  taken := by
    cases c with
    | write path data createParents => exact vfsWrite_taken h.taken noVfsFaults cred now path data createParents
    | mkdir path createParents => exact vfsMkdir_taken h.taken noVfsFaults cred now path createParents
    | delete path => exact vfsDelete_taken h.taken cred path
    | deleteRecursive path => exact vfsDeleteRecursive_taken h.taken cred path
    | rename oldPath newPath => exact vfsRename_taken h.taken noVfsFaults cred now oldPath newPath
    | copy srcPath dstPath createParents =>
      exact vfsCopy_taken h.taken noVfsFaults cred now srcPath dstPath createParents

theorem carrying_committable (cred : VfsCred) (now : Int) :
    Carrying noVfsFaults cred now fun fs fs' => Committable fs → Committable fs' where
  refl _ h := h
  trans _ _ _ h h' hc := h' (h hc)
  write _ path data h := h.edit cred now (.write path data true) fun _ _ heq => nomatch heq
  mkdir _ path h := h.edit cred now (.mkdir path true) fun _ _ heq => nomatch heq

/-- A checkout, however far it gets, leaves what can be committed. -/
theorem Committable.checkoutAt {fs : Vfs} (h : Committable fs) (cs : Codecs) (flt : Faults) (ct : CasTree)
    (cred : VfsCred) (now : Int) (fuel : Nat) (base ref : Bytes) :
    Committable (vfsSnapCheckoutAt cs flt ct noVfsFaults cred now fuel fs base ref).2 := by
  unfold vfsSnapCheckoutAt
  split
  · exact h
  · have hmk := (carrying_committable cred now).mkdir fs base h
    unfold vfsSnapRestoreAt
    split
    · exact h
    · simp only []
      split
      · exact hmk
      · split
        · exact hmk
        · exact (carrying_committable cred now).dir fuel _ _ _ hmk

theorem Committable.checkout {fs : Vfs} (h : Committable fs) (cs : Codecs) (flt : Faults) (ct : CasTree)
    (cred : VfsCred) (now : Int) (fuel : Nat) (ref : Bytes) :
    Committable (vfsSnapCheckout cs flt ct noVfsFaults cred now fuel fs ref).2 := by
  unfold vfsSnapCheckout
  split
  · exact h
  · exact (carrying_committable cred now).dir fuel _ _ _ h

/-! ## A snapshot that fails -/

/-- What fails has a code to say so. -/
theorem casPutObjectAt_ne_ok (flt : Faults) (st : Store) (type : CStr) (data hash : Bytes) (now : Int) :
    casPutObjectAt flt st type data hash now ≠ .error .ok := by
  unfold casPutObjectAt
  split
  · simp
  · split
    · simp
    · split
      · simp
      · split
        · simp
        · exact storeFile_ne_ok flt _ _ _ _

theorem casPutPrecompressed_ne_ok (flt : Faults) (st : Store) (type : CStr) (codec : Int) (payload hash : Bytes)
    (len : Nat) (now : Int) : casPutPrecompressed flt st type codec payload len hash now ≠ .error .ok := by
  unfold casPutPrecompressed
  split
  · simp
  · split
    · simp
    · split
      · simp
      · split
        · simp
        · split
          · simp
          · exact storeFile_ne_ok flt _ _ _ _

theorem casPutObjectZ_ne_ok (cs : Codecs) (cfg : CompressConfig) (flt : Faults) (st : Store) (type : CStr) (codec : Int)
    (data : Bytes) (now : Int) : casPutObjectZ cs cfg flt st type codec data now ≠ .error .ok := by
  unfold casPutObjectZ
  split
  · simp
  · split
    · simp
    · split
      · exact map_ne_ok _ _ (casPutPrecompressed_ne_ok _ _ _ _ _ _ _ _)
      · exact map_ne_ok _ _ (casPutObjectAt_ne_ok _ _ _ _ _ _)

theorem casTreeStore_ne_ok (flt : Faults) (st : Store) (useHtree : Bool) (dir : Dir) (now : Int) :
    casTreeStore flt st useHtree dir now ≠ .error .ok := by
  unfold casTreeStore
  simp only []
  split
  · simp
  · split
    · simp
    · split
      · split
        · next rc hrc =>
          rintro heq
          cases heq
          unfold casHashObject at hrc
          split at hrc <;> cases hrc
        · split
          · simp
          · split
            · simp
            · exact map_ne_ok _ _ (casPutObjectAt_ne_ok _ _ _ _ _ _)
      · exact casPutObject_ne_ok _ _ _ _ _

theorem snapDir_ne_ok (cs : Codecs) (cfg : CompressConfig) (flt : Faults) (fs : Vfs) (cred : VfsCred)
    (noMem noRoom : Nat → Bool) (policy : Policy) (codec : Int) (useHtree : Bool) (now : Int) (fuel : Nat)
    (dirpath : Bytes) (st : Store) :
    (snapDir cs cfg flt fs cred noMem noRoom policy codec useHtree now fuel dirpath st).1 ≠ some (.error .ok) := by
  induction fuel generalizing dirpath st with
  | zero => simp [snapDir]
  | succ fuel ih =>
    have hchildren : ∀ children dir st, (snapStoreChildren cs cfg flt fs cred noRoom policy codec now
        (snapDir cs cfg flt fs cred noMem noRoom policy codec useHtree now fuel) children dir st).1 ≠
          some (.error .ok) := by
      intro children
      induction children with
      | nil => simp [snapStoreChildren]
      | cons c children ih' =>
        intro dir st
        have hone : (snapStoreChild cs cfg flt fs cred policy codec now
            (snapDir cs cfg flt fs cred noMem noRoom policy codec useHtree now fuel) c st).1 ≠ some (.error .ok) := by
          unfold snapStoreChild
          split
          · split
            · simp
            · split
              · next rc hput =>
                rintro heq
                cases heq
                exact casPutObjectZ_ne_ok _ _ _ _ _ _ _ _ hput
              · simp
          · exact ih c.path st
        unfold snapStoreChildren
        split
        · simp
        · split
          · simp
          · next rc st1 hrun =>
            rw [hrun] at hone
            simpa using hone
          · split
            · next rc hadd =>
              unfold casTreeDirAdd at hadd
              split at hadd
              · cases hadd
                simp
              · split at hadd
                · cases hadd
                  simp
                · cases hadd
            · exact ih' _ _
    unfold snapDir
    split
    · simp
    · next children _ =>
      split
      · simp
      · next rc st1 hrun =>
        have := hchildren children [] st
        rw [hrun] at this
        simpa using this
      · split
        · next rc hstore =>
          rintro heq
          cases heq
          exact casTreeStore_ne_ok _ _ _ _ _ hstore
        · simp

section
variable {cs : Codecs} {cfg : CompressConfig} {flt : Faults} {fs : Vfs} {noMem noRoom : Nat → Bool} {useHtree : Bool}
  {now : Int} {objs : List SnapObject} (h : Shaped fs.nodes)
  (hvalid : ∀ n ∈ fs.nodes, validatePathComponents n.path = .ok)
  (hinj : ∀ o ∈ objs, ∀ o' ∈ objs, o.address = o'.address → o = o') (hfits : ∀ o ∈ objs, o.Fits useHtree)
  {d : List Bytes} (fuel : Nat)

/-- What a part of a snapshot leaves, however it ends. -/
def LeavesMore (cs : Codecs) (objs : List SnapObject) (st st' : Store) : Prop :=
  Grows cs st st' ∧ NoneOther cs objs st'

include h hvalid hinj hfits

/-- The children are stored up to the one that fails. -/
theorem snapStoreChildren_left (child : Bytes → Store → Snapped Bytes) (nodes : List VfsNode)
    (hnodes : ∀ n ∈ nodes, n ∈ fs.nodes ∧ (∃ c, nodeKey n = d ++ [c]) ∧
      (n.type = .file → SnapObject.blob n.data ∈ objs) ∧
      (n.type = .dir → ∀ st, NoneOther cs objs st → LeavesMore cs objs st (child n.path st).2))
    {dir : Dir} {st : Store} (hno : NoneOther cs objs st) :
    LeavesMore cs objs st (snapStoreChildren cs cfg flt fs adminCred noRoom .never CAS_CODEC_NONE now child
      (nodes.map snapChild) dir st).2 := by
  induction nodes generalizing dir st with
  | nil => exact ⟨Grows.refl _, hno⟩
  | cons n nodes ih =>
    obtain ⟨hn, ⟨c, hk⟩, hblob, hchild⟩ := hnodes n (by simp)
    obtain ⟨hpath, -⟩ := snapChild_name h hvalid hn hk
    have hone : LeavesMore cs objs st
        (snapStoreChild cs cfg flt fs adminCred .never CAS_CODEC_NONE now child (snapChild n) st).2 := by
      by_cases hfile : n.type = .file
      · cases hrun : snapStoreChild cs cfg flt fs adminCred .never CAS_CODEC_NONE now child (snapChild n) st with
        | mk r st' =>
          match r with
          | some (.ok hash) =>
            have hnotDir : n.type ≠ .dir := by rw [hfile]; decide
            have hstored := snapStoreChild_stored h hvalid hinj hfits 0 child hn hk hblob
              (fun hd => absurd hd hnotDir) hno hrun
            exact ⟨hstored.grows, hstored.noneOther⟩
          | none =>
            unfold snapStoreChild at hrun
            rw [if_pos (show (snapChild n).type = .file from hfile)] at hrun
            split at hrun
            · cases hrun
            · split at hrun <;> cases hrun
          | some (.error rc) =>
            unfold snapStoreChild at hrun
            rw [if_pos (show (snapChild n).type = .file from hfile)] at hrun
            -- a put that fails leaves the depot as it was
            split at hrun
            · cases hrun
              exact ⟨Grows.refl _, hno⟩
            · split at hrun
              · cases hrun
                exact ⟨Grows.refl _, hno⟩
              · cases hrun
      · have hdir : n.type = .dir := by
          cases ht : n.type with
          | file => exact absurd ht hfile
          | dir => rfl
        unfold snapStoreChild
        rw [if_neg (show (snapChild n).type ≠ .file from hfile), hpath]
        exact hchild hdir st hno
    rw [List.map_cons, snapStoreChildren]
    split
    · exact ⟨Grows.refl _, hno⟩
    · split
      · next hrun => rwa [hrun] at hone
      · next hrun => rwa [hrun] at hone
      · next hash st1 hrun =>
        rw [hrun] at hone
        split
        · exact hone
        · obtain ⟨hg, hno'⟩ := ih (fun m hm => hnodes m (by simp [hm])) hone.2
          exact ⟨hone.1.trans hg, hno'⟩

/-- **A snapshot takes nothing from the depot**, wherever it fails. -/
theorem snapDir_left (d : List Bytes) (hd : DirAt isDirNode (treeOf fs.nodes) d)
    (hlen : (pathOf d).length < VFS_PATH_MAX) (hobjs : ∀ o ∈ snapshotObjects fs fuel (pathOf d), o ∈ objs)
    {st : Store} (hno : NoneOther cs objs st) :
    LeavesMore cs objs st
      (snapDir cs cfg flt fs adminCred noMem noRoom .never CAS_CODEC_NONE useHtree now fuel (pathOf d) st).2 := by
  induction fuel generalizing d st with
  | zero => exact ⟨Grows.refl _, hno⟩
  | succ fuel ih =>
    have hc := h.dirAt_components hd
    cases hrun : snapDir cs cfg flt fs adminCred noMem noRoom .never CAS_CODEC_NONE useHtree now (fuel + 1) (pathOf d)
      st with
    | mk r st' =>
      by_cases hok : ∃ hash, r = some (.ok hash)
      · obtain ⟨hash, rfl⟩ := hok
        obtain ⟨-, hg, hno', -⟩ := snapDir_stored h hvalid hinj hfits (fuel + 1) d hd hlen hobjs hno hrun
        exact ⟨hg, hno'⟩
      · unfold snapDir at hrun
        split at hrun
        · cases hrun
          exact ⟨Grows.refl _, hno⟩
        · next children hlist =>
          obtain ⟨nodes, hl, rfl⟩ := snapList_some hlist
          rw [vfsList_dir h d hd hlen] at hl
          obtain rfl := Except.ok.inj hl
          have hleft : LeavesMore cs objs st (snapStoreChildren cs cfg flt fs adminCred noRoom .never CAS_CODEC_NONE now
              (snapDir cs cfg flt fs adminCred noMem noRoom .never CAS_CODEC_NONE useHtree now fuel)
              ((listing fs (pathOf d)).map snapChild) [] st).2 := by
            refine @snapStoreChildren_left _ _ _ _ _ _ _ _ h hvalid hinj hfits d _ _ (fun n hn => ?_) _ _ hno
            obtain ⟨hmem, c, hk⟩ := (mem_listing h d hc n).mp hn
            obtain ⟨-, -, hp⟩ := (h.normal n hmem).key
            refine ⟨hmem, ⟨c, hk⟩, fun hf => ?_, fun hdir st3 hno3 => ?_⟩
            · apply hobjs
              apply snapshotObjects_child fuel hn
              rw [if_pos hf]
              exact List.mem_singleton_self _
            · have hnotFile : ¬ n.type = .file := by rw [hdir]; decide
              have hnlen := ((validate_iff (h.normal n hmem)).mp (hvalid n hmem)).1
              rw [hp] at hnlen ⊢
              exact ih (nodeKey n) (Or.inr ⟨n, (h.treeOf_eq_some _ n).mpr ⟨hmem, rfl⟩, hdir⟩) hnlen
                (fun o ho => hobjs o (snapshotObjects_child fuel hn (by rw [if_neg hnotFile, hp]; exact ho))) hno3
          split at hrun
          · next hch => rw [hch] at hleft; cases hrun; exact hleft
          · next hch => rw [hch] at hleft; cases hrun; exact hleft
          · next dir st1 hch =>
            rw [hch] at hleft
            split at hrun
            · cases hrun
              exact hleft
            · cases hrun
              exact absurd ⟨_, rfl⟩ hok

end

end Smolvfs
