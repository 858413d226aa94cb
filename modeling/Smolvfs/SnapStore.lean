import Smolvfs.Puts
import Smolvfs.SnapRestore
import Smolvfs.VfsValid

/-!
# Taking a snapshot

`snap_dir` and `vfs_snap_store` of `vfs-snap.c`: the children of a directory are
listed, files are put as blobs and directories are gone into, and the entries are
stored as a tree object.

`snapDir_snapshot` is what a snapshot that succeeds leaves in the depot, and
`snap_restore_exact` that restoring it gives the filesystem back; a restore of any
tree is exact when the filesystem keeps the names.
-/

namespace Smolvfs

open Octets Keyed Names PathTree

/-! ## The snapshot -/

/-- The entry of a child at an address. -/
def SnapChild.entry (c : SnapChild) (hash : Bytes) : Entry where
  mode := (if c.type = .file then CAS_TREE_S_IFREG else CAS_TREE_S_IFDIR) ||| (c.mode &&& 0o777#32)
  uid := c.owner
  gid := 0#32
  mtimeS := BitVec.ofInt 64 c.mtime
  mtimeNs := 0#32
  hash := hash
  name := CStr.ofBuf (basenameOf c.path)

/-- What a part of a snapshot returns, and the depot then; none is a recursion that goes too deep. -/
abbrev Snapped (α : Type) := Option (Except Status α) × Store

section
variable (cs : Codecs) (cfg : CompressConfig) (flt : Faults) (fs : Vfs) (cred : VfsCred) (noMem noRoom : Nat → Bool)
  (policy : Policy) (codec : Int) (useHtree : Bool) (now : Int)

/-- A child stored; `child` is the snapshot of a directory. -/
def snapStoreChild (child : Bytes → Store → Snapped Bytes) (c : SnapChild) (st : Store) : Snapped Bytes :=
  if c.type = .file then
    match vfsRead fs cred c.path with
    | .error _ => (some (.error .err), st)
    | .ok data =>
      match casPutObjectZ cs cfg flt st tBlob (casCodecPolicy policy codec data) data now with
      | .error rc => (some (.error rc), st)
      | .ok (st', hash) => (some (.ok hash), st')
  else child c.path st

/-- The children one after another, up to an error. -/
def snapStoreChildren (child : Bytes → Store → Snapped Bytes) : List SnapChild → Dir → Store → Snapped Dir
  | [], dir, st => (some (.ok dir), st)
  | c :: children, dir, st =>
    if (CStr.ofBuf (basenameOf c.path)).bytes.length = 0 ∨
        (CStr.ofBuf (basenameOf c.path)).bytes.length > CAS_TREE_NAME_MAX then (some (.error .err), st)
    else
      match snapStoreChild cs cfg flt fs cred policy codec now child c st with
      | (none, st) => (none, st)
      | (some (.error rc), st) => (some (.error rc), st)
      | (some (.ok hash), st) =>
        match casTreeDirAdd (noRoom dir.length) dir (c.entry hash) with
        | .error rc => (some (.error rc), st)
        | .ok dir => snapStoreChildren child children dir st

/-- `snap_dir`; `fuel` bounds the depth. -/
def snapDir : Nat → Bytes → Store → Snapped Bytes
  | 0, _, st => (none, st)
  | fuel + 1, dirpath, st =>
    match snapList noMem fs cred dirpath with
    | none => (some (.error .err), st)
    | some children =>
      match snapStoreChildren cs cfg flt fs cred noRoom policy codec now (snapDir fuel) children [] st with
      | (none, st) => (none, st)
      | (some (.error rc), st) => (some (.error rc), st)
      | (some (.ok dir), st) =>
        match casTreeStore flt st useHtree dir now with
        | .error rc => (some (.error rc), st)
        | .ok (st', hash) => (some (.ok hash), st')

/-- `vfs_snap_store` -/
def vfsSnapStore (fuel : Nat) (st : Store) : Snapped Bytes :=
  snapDir cs cfg flt fs cred noMem noRoom .never CAS_CODEC_NONE useHtree now fuel [47] st

/-- `vfs_snap_store_z` -/
def vfsSnapStoreZ (fuel : Nat) (st : Store) : Snapped Bytes :=
  snapDir cs cfg flt fs cred noMem noRoom policy codec useHtree now fuel [47] st

end

/-! ## What is put -/

/-- A file's contents, or the sorted entries of a directory. -/
inductive SnapObject
  | blob (data : Bytes)
  | tree (dir : Dir)
  deriving DecidableEq

/-- Where it is put. -/
def SnapObject.address : SnapObject → Bytes
  | .blob data => toHex (objBin (tBlob, data))
  | .tree dir => toHex (objBin (tTree, treeSerialize dir))

/-- What the depot has at its address reads as it. -/
def SnapObject.Reads (cs : Codecs) (st : Store) : SnapObject → Prop
  | .blob data => casOpen cs noFaults st (SnapObject.blob data).address = .ok data
  | .tree dir => casTreeLoad cs noFaults st (SnapObject.tree dir).address = .ok dir

/-- The form it is stored in is within the reader's limits. -/
def SnapObject.Fits (useHtree : Bool) : SnapObject → Prop
  | .blob data => data.length + CAS_PACK_BLOCK ≤ 2 ^ 30
  | .tree dir => (treeForm useHtree dir).2.length + CAS_PACK_BLOCK ≤ 2 ^ 30

section
variable (fs : Vfs)

/-- The entries of a directory, in the order of the array. -/
def snapshotDir : Nat → Bytes → Dir
  | 0, _ => []
  | fuel + 1, dirpath => (listing fs dirpath).map fun n => (snapChild n).entry
      (if n.type = .file then (SnapObject.blob n.data).address
        else (SnapObject.tree (sortEntries (snapshotDir fuel n.path))).address)

/-- The objects of a directory and of all that is below it. -/
def snapshotObjects : Nat → Bytes → List SnapObject
  | 0, _ => []
  | fuel + 1, dirpath => .tree (sortEntries (snapshotDir fs (fuel + 1) dirpath)) ::
      (listing fs dirpath).flatMap fun n => if n.type = .file then [.blob n.data] else snapshotObjects fuel n.path

end

theorem lowerHash_address (o : SnapObject) : LowerHash o.address := by
  cases o with
  | blob data => exact lowerHash_toHex _ (length_digest2 _ _)
  | tree dir => exact lowerHash_toHex _ (length_digest2 _ _)

section
variable {cs : Codecs} {st st' : Store}

theorem Grows.blob (h : Grows cs st st') {hash data : Bytes} (hopen : casOpen cs noFaults st hash = .ok data) :
    casOpen cs noFaults st' hash = .ok data := by
  unfold casOpen at hopen ⊢
  split at hopen
  · cases hopen
  · next obj hobj =>
    rw [h hash _ hobj]
    exact hopen

theorem SnapObject.Reads.grow {o : SnapObject} (hr : o.Reads cs st) (h : Grows cs st st') : o.Reads cs st' := by
  cases o with
  | blob data => exact h.blob hr
  | tree dir => exact h.load hr

/-- What the depot has at the objects' addresses reads as they do. -/
def NoneOther (cs : Codecs) (objs : List SnapObject) (st : Store) : Prop :=
  ∀ o ∈ objs, ¬ Fresh st o.address → o.Reads cs st

/-- **A put of one of the objects** makes it readable and none of the others another. -/
theorem NoneOther.put {objs : List SnapObject} (hn : NoneOther cs objs st)
    (hinj : ∀ o ∈ objs, ∀ o' ∈ objs, o.address = o'.address → o = o') {o : SnapObject} (ho : o ∈ objs) {obj : Object}
    (hput : PutAt cs st st' o.address obj) (hfits : RawFits obj.1 obj.2)
    (hreads : casOpenObject cs noFaults st' o.address = .ok obj → o.Reads cs st') :
    NoneOther cs objs st' ∧ o.Reads cs st' ∧ Grows cs st st' := by
  have hg := hput.grows
  have hself : o.Reads cs st' := by
    by_cases hf : Fresh st o.address
    · exact hreads (hput.opens hf hfits)
    · exact (hn o ho hf).grow hg
  refine ⟨fun x hx hstored => ?_, hself, hg⟩
  by_cases haddr : x.address = o.address
  · rw [hinj x hx o ho haddr]
    exact hself
  · rw [hput.fresh haddr] at hstored
    exact (hn x hx hstored).grow hg

end

/-! ## Names and modes -/

theorem entry_isReg (c : SnapChild) (hash : Bytes) (h : c.type = .file) : (c.entry hash).isReg = true := by
  unfold Entry.isReg SnapChild.entry
  rw [if_pos h, type_of_mode]
  decide

theorem entry_isDir (c : SnapChild) (hash : Bytes) (h : c.type = .dir) : (c.entry hash).isDir = true := by
  unfold Entry.isDir SnapChild.entry
  rw [if_neg (by rw [h]; decide), type_of_mode]
  decide

/-- A component of a path that passes the check is a string. -/
theorem noNul_of_valid {d : List Bytes} {c : Bytes} (h : NormalPath (pathOf (d ++ [c])))
    (hv : validatePathComponents (pathOf (d ++ [c])) = .ok) : (0 : UInt8) ∉ c := by
  intro hmem
  have hin : (0 : UInt8) ∈ pathOf (d ++ [c]) := by
    rw [pathOf_ne_nil _ (by simp), join_concat]
    simp [hmem]
  rcases ((validate_iff h).mp hv).2 0 hin with heq | ⟨hge, -⟩
  · cases heq
  · exact absurd hge (by decide)

/-! ## What a snapshot leaves -/

/-- The directory at an address is the one at a path: it has the names of the children, each with what the child
holds, and directories are the children's in turn. -/
def StandsFor (cs : Codecs) (st : Store) (fs : Vfs) : Nat → List Bytes → Bytes → Prop
  | 0, _, _ => False
  | fuel + 1, d, hash => ∃ dir, casTreeLoad cs noFaults st hash = .ok dir ∧
      (∀ c, (∃ e ∈ dir, e.name.bytes = c) ↔ ∃ n, treeOf fs.nodes (d ++ [c]) = some n) ∧
      ∀ e ∈ dir, ∀ n, treeOf fs.nodes (d ++ [e.name.bytes]) = some n →
        (n.type = .file ∧ e.isReg = true ∧ casOpen cs noFaults st e.hash = .ok n.data) ∨
          (n.type = .dir ∧ e.isDir = true ∧ StandsFor cs st fs fuel (d ++ [e.name.bytes]) e.hash)

theorem StandsFor.grow {cs : Codecs} {st st' : Store} {fs : Vfs} (hg : Grows cs st st') {fuel : Nat} {d : List Bytes}
    {hash : Bytes} (h : StandsFor cs st fs fuel d hash) : StandsFor cs st' fs fuel d hash := by
  induction fuel generalizing d hash with
  | zero => exact h
  | succ fuel ih =>
    obtain ⟨dir, hload, hnames, hall⟩ := h
    refine ⟨dir, hg.load hload, hnames, fun e he n hn => ?_⟩
    rcases hall e he n hn with ⟨hf, hreg, hopen⟩ | ⟨hd, hdir, hsub⟩
    · exact Or.inl ⟨hf, hreg, hg.blob hopen⟩
    · exact Or.inr ⟨hd, hdir, ih hsub⟩

section
variable {cs : Codecs} {cfg : CompressConfig} {flt : Faults} {fs : Vfs} {cred : VfsCred} {noMem noRoom : Nat → Bool}
  {useHtree : Bool} {now : Int} {objs : List SnapObject}

/-- A directory within the limits loads from either form. -/
theorem treeForm_reads {st : Store} {dir : Dir} (hp : ∀ e ∈ dir, e.Printable) (hs : NamesAscending dir)
    (hfits : (SnapObject.tree dir).Fits useHtree)
    (hopen : casOpenObject cs noFaults st (SnapObject.tree dir).address = .ok (treeForm useHtree dir)) :
    (SnapObject.tree dir).Reads cs st := by
  show casTreeLoad cs noFaults st (SnapObject.tree dir).address = .ok dir
  unfold casTreeLoad
  rw [hopen]
  cases useHtree with
  | false => exact treeTextLoad_serialize dir hp hs
  | true =>
    have hle : (htreeBuild dir).length + CAS_PACK_BLOCK ≤ 2 ^ 30 := hfits
    show (if tHtree = tTree then _ else if tHtree = tHtree then _ else _) = _
    rw [if_neg tHtree_ne_tTree, if_pos rfl]
    exact htreeParseDir_build dir hp hs (by omega)

variable (h : Shaped fs.nodes) (hvalid : ∀ n ∈ fs.nodes, validatePathComponents n.path = .ok)

include h hvalid

/-- A child's name is the last component of its path. -/
theorem snapChild_name {d : List Bytes} {n : VfsNode} {c : Bytes} (hn : n ∈ fs.nodes) (hk : nodeKey n = d ++ [c]) :
    (snapChild n).path = n.path ∧ (CStr.ofBuf (basenameOf (snapChild n).path)).bytes = c := by
  obtain ⟨hc, -, hp⟩ := (h.normal n hn).key
  have hlen := ((validate_iff (h.normal n hn)).mp (hvalid n hn)).1
  have hpath : (snapChild n).path = n.path :=
    List.take_of_length_le (by unfold SNAP_PATH_MAX; unfold VFS_PATH_MAX at hlen; omega)
  have hv := hvalid n hn
  have hnormal := h.normal n hn
  rw [hk] at hc hp
  rw [hp] at hv hnormal
  refine ⟨hpath, ?_⟩
  have hslash : (47 : UInt8) ∉ c := (hc.names c (by simp)).2
  rw [hpath, hp, basenameOf_concat d c hslash]
  exact takeWhile_ne c (noNul_of_valid hnormal hv)

/-- What a child's address reads as. -/
def ChildStands (cs : Codecs) (st : Store) (fs : Vfs) (fuel : Nat) (n : VfsNode) (hash : Bytes) : Prop :=
  (n.type = .file ∧ casOpen cs noFaults st hash = .ok n.data) ∨
    (n.type = .dir ∧ StandsFor cs st fs fuel (nodeKey n) hash)

/-- Where a child is put. -/
def childAddress (fs : Vfs) (fuel : Nat) (n : VfsNode) : Bytes :=
  if n.type = .file then (SnapObject.blob n.data).address
  else (SnapObject.tree (sortEntries (snapshotDir fs fuel n.path))).address

/-- A child that has been stored. -/
structure ChildStored (cs : Codecs) (fs : Vfs) (objs : List SnapObject) (st st' : Store) (fuel : Nat) (n : VfsNode)
    (hash : Bytes) : Prop where
  address : hash = childAddress fs fuel n
  grows : Grows cs st st'
  noneOther : NoneOther cs objs st'
  stands : ChildStands cs st' fs fuel n hash

omit h hvalid in
theorem ChildStands.grow {st st' : Store} (hg : Grows cs st st') {fuel : Nat} {n : VfsNode} {hash : Bytes}
    (hs : ChildStands cs st fs fuel n hash) : ChildStands cs st' fs fuel n hash := by
  rcases hs with ⟨hf, hopen⟩ | ⟨hd, hsub⟩
  · exact Or.inl ⟨hf, hg.blob hopen⟩
  · exact Or.inr ⟨hd, hsub.grow hg⟩

variable (hinj : ∀ o ∈ objs, ∀ o' ∈ objs, o.address = o'.address → o = o') (hfits : ∀ o ∈ objs, o.Fits useHtree)
  {d : List Bytes} (fuel : Nat) (child : Bytes → Store → Snapped Bytes)

include hinj hfits

/-- **A child that is stored** is at its address, and can be read there. -/
theorem snapStoreChild_stored {n : VfsNode} {c : Bytes} (hn : n ∈ fs.nodes) (hk : nodeKey n = d ++ [c])
    (hblob : n.type = .file → SnapObject.blob n.data ∈ objs)
    (hchild : n.type = .dir → ∀ st st' hash, NoneOther cs objs st → child n.path st = (some (.ok hash), st') →
      ChildStored cs fs objs st st' fuel n hash)
    {st st' : Store} {hash : Bytes} (hno : NoneOther cs objs st)
    (hrun : snapStoreChild cs cfg flt fs adminCred .never CAS_CODEC_NONE now child (snapChild n) st =
      (some (.ok hash), st')) : ChildStored cs fs objs st st' fuel n hash := by
  obtain ⟨hpath, -⟩ := snapChild_name h hvalid hn hk
  have htype : (snapChild n).type = n.type := rfl
  unfold snapStoreChild at hrun
  rw [hpath, htype] at hrun
  by_cases hfile : n.type = .file
  · rw [if_pos hfile] at hrun
    obtain ⟨-, -, hp⟩ := (h.normal n hn).key
    have hread : vfsRead fs adminCred n.path = .ok n.data := by
      have hlen := ((validate_iff (h.normal n hn)).mp (hvalid n hn)).1
      rw [hp] at hlen ⊢
      exact vfsRead_file h (nodeKey n) n ((h.treeOf_eq_some _ n).mpr ⟨hn, rfl⟩) (by rw [hfile]; decide) hlen
    rw [hread] at hrun
    dsimp only at hrun
    split at hrun
    · cases (Prod.mk.inj hrun).1
    · next st1 addr hput =>
      obtain ⟨hok, rfl⟩ := Prod.mk.inj hrun
      obtain rfl := Except.ok.inj (Option.some.inj hok)
      obtain ⟨haddr, hat⟩ := casPutObjectZ_putAt hput
      have hmem := hblob hfile
      have hsize : n.data.length + CAS_PACK_BLOCK ≤ 2 ^ 30 := hfits _ hmem
      have hblank : (32 : UInt8) ∉ tBlob.bytes := by decide
      obtain ⟨hno', hr, hg⟩ := hno.put hinj hmem (haddr ▸ hat) ⟨hblank, hsize⟩ fun hopen => by
        show casOpen cs noFaults _ _ = _
        unfold casOpen
        rw [hopen]
        exact if_pos rfl
      refine ⟨?_, hg, hno', Or.inl ⟨hfile, ?_⟩⟩
      · unfold childAddress
        rw [if_pos hfile, haddr]
        rfl
      · rw [haddr]
        exact hr
  · rw [if_neg hfile] at hrun
    have hdir : n.type = .dir := by
      cases ht : n.type with
      | file => exact absurd ht hfile
      | dir => rfl
    exact hchild hdir st st' hash hno hrun

/-- **The children one after another**: the entries are those of the pure directory, and every child can be read. -/
theorem snapStoreChildren_stored (nodes : List VfsNode)
    (hnodes : ∀ n ∈ nodes, n ∈ fs.nodes ∧ (∃ c, nodeKey n = d ++ [c]) ∧
      (n.type = .file → SnapObject.blob n.data ∈ objs) ∧
      (n.type = .dir → ∀ st st' hash, NoneOther cs objs st → child n.path st = (some (.ok hash), st') →
        ChildStored cs fs objs st st' fuel n hash))
    {dir dir' : Dir} {st st' : Store} (hno : NoneOther cs objs st)
    (hrun : snapStoreChildren cs cfg flt fs adminCred noRoom .never CAS_CODEC_NONE now child (nodes.map snapChild)
      dir st = (some (.ok dir'), st')) :
    dir' = dir ++ (nodes.map fun n => (snapChild n).entry (childAddress fs fuel n)) ∧ Grows cs st st' ∧
      NoneOther cs objs st' ∧ ∀ n ∈ nodes, validName (CStr.ofBuf (basenameOf (snapChild n).path)) = true ∧
        ChildStands cs st' fs fuel n (childAddress fs fuel n) := by
  induction nodes generalizing dir st with
  | nil =>
    obtain ⟨hok, rfl⟩ := Prod.mk.inj hrun
    obtain rfl := Except.ok.inj (Option.some.inj hok)
    exact ⟨by simp, Grows.refl _, hno, fun n hn => nomatch hn⟩
  | cons n nodes ih =>
    obtain ⟨hn, ⟨c, hk⟩, hblob, hchild⟩ := hnodes n (by simp)
    rw [List.map_cons, snapStoreChildren] at hrun
    split at hrun
    · cases (Prod.mk.inj hrun).1
    · split at hrun
      · cases (Prod.mk.inj hrun).1
      · cases (Prod.mk.inj hrun).1
      · next hash st1 hone =>
        have hfirst := snapStoreChild_stored h hvalid hinj hfits fuel child hn hk hblob hchild hno hone
        split at hrun
        · cases (Prod.mk.inj hrun).1
        · next dir1 hadd =>
          unfold casTreeDirAdd at hadd
          split at hadd
          · cases hadd
          · next hname =>
            split at hadd
            · cases hadd
            · obtain rfl := Except.ok.inj hadd
              obtain ⟨hdir, hg, hno', hall⟩ := ih (fun m hm => hnodes m (by simp [hm])) hfirst.noneOther hrun
              refine ⟨?_, hfirst.grows.trans hg, hno', fun m hm => ?_⟩
              · rw [hdir, hfirst.address]
                simp
              · rcases List.mem_cons.mp hm with rfl | hm
                · refine ⟨(Bool.not_eq_false _).mp hname, ?_⟩
                  rw [← hfirst.address]
                  exact hfirst.stands.grow hg
                · exact hall m hm

omit hinj hfits in
/-- The children of a directory stand for the filesystem's, by name. -/
theorem standsFor_succ {st : Store} {hash : Bytes} {dir : Dir} (hd : Components d)
    (hload : casTreeLoad cs noFaults st hash = .ok dir)
    (hmem : ∀ e, e ∈ dir ↔ ∃ n ∈ listing fs (pathOf d), (snapChild n).entry (childAddress fs fuel n) = e)
    (hall : ∀ n ∈ listing fs (pathOf d), ChildStands cs st fs fuel n (childAddress fs fuel n)) :
    StandsFor cs st fs (fuel + 1) d hash := by
  have hname : ∀ n ∈ listing fs (pathOf d), ∀ addr, treeOf fs.nodes (d ++ [((snapChild n).entry addr).name.bytes]) =
    some n := by
    intro n hn addr
    obtain ⟨hmem, c, hk⟩ := (mem_listing h d hd n).mp hn
    obtain ⟨-, hc⟩ := snapChild_name h hvalid hmem hk
    have hc' : ((snapChild n).entry addr).name.bytes = c := hc
    rw [hc']
    exact (h.treeOf_eq_some _ n).mpr ⟨hmem, hk⟩
  refine ⟨dir, hload, fun c => ⟨?_, ?_⟩, fun e he n hn => ?_⟩
  · rintro ⟨e, he, rfl⟩
    obtain ⟨n, hn, rfl⟩ := (hmem e).mp he
    exact ⟨n, hname n hn _⟩
  · rintro ⟨n, hn⟩
    obtain ⟨hm, hk⟩ := (h.treeOf_eq_some _ n).mp hn
    have hlist : n ∈ listing fs (pathOf d) := (mem_listing h d hd n).mpr ⟨hm, c, hk⟩
    exact ⟨_, (hmem _).mpr ⟨n, hlist, rfl⟩, (snapChild_name h hvalid hm hk).2⟩
  · obtain ⟨m, hm, rfl⟩ := (hmem e).mp he
    obtain rfl : m = n := Option.some.inj ((hname m hm _).symm.trans hn)
    rcases hall m hm with ⟨hf, hopen⟩ | ⟨hdir, hsub⟩
    · exact Or.inl ⟨hf, entry_isReg _ _ hf, hopen⟩
    · obtain ⟨-, hk⟩ := (h.treeOf_eq_some _ m).mp hn
      rw [hk] at hsub
      exact Or.inr ⟨hdir, entry_isDir _ _ hdir, hsub⟩

omit h hvalid hinj hfits in
/-- The objects of a child are among those of its directory. -/
theorem snapshotObjects_child {dirpath : Bytes} {n : VfsNode} (hn : n ∈ listing fs dirpath) {o : SnapObject}
    (ho : o ∈ if n.type = .file then [SnapObject.blob n.data] else snapshotObjects fs fuel n.path) :
    o ∈ snapshotObjects fs (fuel + 1) dirpath :=
  List.mem_cons_of_mem _ (List.mem_flatMap.mpr ⟨n, hn, ho⟩)

omit h hvalid hinj hfits in
theorem lowerHash_childAddress (n : VfsNode) : LowerHash (childAddress fs fuel n) := by
  unfold childAddress
  split
  · exact lowerHash_address _
  · exact lowerHash_address _

omit child in
/-- **A directory that is stored** has the address of its entries, and stands for what the filesystem has. -/
theorem snapDir_stored (d : List Bytes) (hd : DirAt isDirNode (treeOf fs.nodes) d)
    (hlen : (pathOf d).length < VFS_PATH_MAX) (hobjs : ∀ o ∈ snapshotObjects fs fuel (pathOf d), o ∈ objs)
    {st st' : Store} {hash : Bytes} (hno : NoneOther cs objs st)
    (hrun : snapDir cs cfg flt fs adminCred noMem noRoom .never CAS_CODEC_NONE useHtree now fuel (pathOf d) st =
      (some (.ok hash), st')) :
    hash = (SnapObject.tree (sortEntries (snapshotDir fs fuel (pathOf d)))).address ∧ Grows cs st st' ∧
      NoneOther cs objs st' ∧ StandsFor cs st' fs fuel d hash := by
  induction fuel generalizing d st st' hash with
  | zero => cases (Prod.mk.inj hrun).1
  | succ fuel ih =>
    have hc := h.dirAt_components hd
    unfold snapDir at hrun
    split at hrun
    · cases (Prod.mk.inj hrun).1
    · next children hlist =>
      obtain ⟨nodes, hl, rfl⟩ := snapList_some hlist
      rw [vfsList_dir h d hd hlen] at hl
      obtain rfl := Except.ok.inj hl
      split at hrun
      · cases (Prod.mk.inj hrun).1
      · cases (Prod.mk.inj hrun).1
      · next dir st1 hchildren =>
        -- what the recursion gives of a child
        have hnodes : ∀ n ∈ listing fs (pathOf d), n ∈ fs.nodes ∧ (∃ c, nodeKey n = d ++ [c]) ∧
            (n.type = .file → SnapObject.blob n.data ∈ objs) ∧
            (n.type = .dir → ∀ st st' hash, NoneOther cs objs st →
              snapDir cs cfg flt fs adminCred noMem noRoom .never CAS_CODEC_NONE useHtree now fuel n.path st =
                (some (.ok hash), st') → ChildStored cs fs objs st st' fuel n hash) := by
          intro n hn
          obtain ⟨hmem, c, hk⟩ := (mem_listing h d hc n).mp hn
          obtain ⟨-, -, hp⟩ := (h.normal n hmem).key
          refine ⟨hmem, ⟨c, hk⟩, fun hf => ?_, fun hdir st3 st4 addr hno3 hsub => ?_⟩
          · apply hobjs
            apply snapshotObjects_child fuel hn
            rw [if_pos hf]
            exact List.mem_singleton_self _
          · have hnotFile : ¬ n.type = .file := by rw [hdir]; decide
            have hnlen := ((validate_iff (h.normal n hmem)).mp (hvalid n hmem)).1
            rw [hp] at hsub hnlen
            obtain ⟨haddr, hg, hno4, hstands⟩ :=
              ih (nodeKey n) (Or.inr ⟨n, (h.treeOf_eq_some _ n).mpr ⟨hmem, rfl⟩, hdir⟩)
              hnlen (fun o ho => hobjs o (snapshotObjects_child fuel hn (by rw [if_neg hnotFile, hp]; exact ho)))
                hno3 hsub
            refine ⟨?_, hg, hno4, Or.inr ⟨hdir, hstands⟩⟩
            unfold childAddress
            rw [if_neg hnotFile, haddr, ← hp]
        obtain ⟨hdir, hg1, hno1, hall⟩ := snapStoreChildren_stored h hvalid hinj hfits fuel _ _ hnodes hno hchildren
        split at hrun
        · cases (Prod.mk.inj hrun).1
        · next st2 addr hstore =>
          obtain ⟨hok, rfl⟩ := Prod.mk.inj hrun
          obtain rfl := Except.ok.inj (Option.some.inj hok)
          obtain ⟨haddr, hs, hput⟩ : addr = (SnapObject.tree (sortEntries dir)).address ∧ _ ∧ _ :=
            casTreeStore_putAt cs hstore
          have hpure : dir = snapshotDir fs (fuel + 1) (pathOf d) := hdir
          have hmem : ∀ e, e ∈ sortEntries dir ↔
              ∃ n ∈ listing fs (pathOf d), (snapChild n).entry (childAddress fs fuel n) = e := by
            intro e
            rw [(sortEntries_perm dir).mem_iff, hdir, List.nil_append, List.mem_map]
          have hp : ∀ e ∈ sortEntries dir, e.Printable := by
            intro e he
            obtain ⟨n, hn, rfl⟩ := (hmem e).mp he
            exact ⟨lowerHash_childAddress fuel n, (hall n hn).1⟩
          have hin : SnapObject.tree (sortEntries dir) ∈ objs := by
            apply hobjs
            rw [hpure]
            exact List.mem_cons_self
          have hsize := hfits _ hin
          have hblank : (32 : UInt8) ∉ (treeForm useHtree (sortEntries dir)).1.bytes := by
            cases useHtree with
            | false => exact (by decide : (32 : UInt8) ∉ tTree.bytes)
            | true => exact (by decide : (32 : UInt8) ∉ tHtree.bytes)
          rw [haddr] at hput
          obtain ⟨hno2, hreads, hg2⟩ := hno1.put hinj hin hput ⟨hblank, hsize⟩ (treeForm_reads hp hs hsize)
          refine ⟨by rw [haddr, hpure], hg1.trans hg2, hno2, ?_⟩
          rw [haddr]
          exact standsFor_succ h hvalid fuel hc hreads hmem fun n hn => (hall n hn).2.grow hg2

end

/-! ## What stands for the filesystem -/

section
variable {cs : Codecs} {st : Store} {fs : Vfs} (h : Shaped fs.nodes)

/-- An entry with what it is reached for. -/
def EntryStands (cs : Codecs) (st : Store) (fs : Vfs) (p : List Bytes) (e : Entry) (n : VfsNode) : Prop :=
  (n.type = .file ∧ e.isReg = true ∧ casOpen cs noFaults st e.hash = .ok n.data) ∨
    (n.type = .dir ∧ e.isDir = true ∧ ∃ fuel, StandsFor cs st fs fuel p e.hash)

/-- The entry of a name, and the child of that name. -/
theorem StandsFor.child {fuel : Nat} {d : List Bytes} {hash : Bytes} (hs : StandsFor cs st fs fuel d hash) (c : Bytes) :
    (∀ e, entryIn cs noFaults st hash c = some e →
      ∃ n, treeOf fs.nodes (d ++ [c]) = some n ∧ EntryStands cs st fs (d ++ [c]) e n) ∧
    (entryIn cs noFaults st hash c = none → treeOf fs.nodes (d ++ [c]) = none) := by
  cases fuel with
  | zero => exact hs.elim
  | succ fuel =>
    obtain ⟨dir, hload, hnames, hall⟩ := hs
    refine ⟨fun e he => ?_, fun hnone => ?_⟩
    · obtain ⟨dir', hload', hmem, rfl⟩ := entryIn_some he
      obtain rfl := Except.ok.inj (hload.symm.trans hload')
      obtain ⟨n, hn⟩ := (hnames _).mp ⟨e, hmem, rfl⟩
      refine ⟨n, hn, ?_⟩
      rcases hall e hmem n hn with hfile | ⟨hdir, hisDir, hsub⟩
      · exact Or.inl hfile
      · exact Or.inr ⟨hdir, hisDir, fuel, hsub⟩
    · by_contra hsome
      obtain ⟨n, hn⟩ := Option.ne_none_iff_exists'.mp hsome
      obtain ⟨e, he, hname⟩ := (hnames c).mpr ⟨n, hn⟩
      exact (entryIn_none hload).mp hnone e he hname

theorem StandsFor.within {fuel : Nat} {d : List Bytes} {hash : Bytes} (hs : StandsFor cs st fs fuel d hash) :
    Within cs noFaults st fuel hash := by
  induction fuel generalizing d hash with
  | zero => exact hs
  | succ fuel ih =>
    obtain ⟨dir, hload, hnames, hall⟩ := hs
    refine ⟨dir, hload, fun e he => ?_⟩
    obtain ⟨n, hn⟩ := (hnames _).mp ⟨e, he, rfl⟩
    rcases hall e he n hn with ⟨-, hreg, hopen⟩ | ⟨-, hisDir, hsub⟩
    · exact Or.inl ⟨hreg, _, hopen⟩
    · exact Or.inr ⟨hisDir, ih hsub⟩

include h

/-- **Entry and node at every path.** -/
theorem StandsFor.reached {fuel : Nat} {d : List Bytes} {hash : Bytes} (hs : StandsFor cs st fs fuel d hash)
    (p : List Bytes) (hne : p ≠ []) :
    (∀ e, entryAt cs noFaults st hash p = some e →
      ∃ n, treeOf fs.nodes (d ++ p) = some n ∧ EntryStands cs st fs (d ++ p) e n) ∧
    (entryAt cs noFaults st hash p = none → treeOf fs.nodes (d ++ p) = none) := by
  induction p generalizing fuel d hash with
  | nil => exact absurd rfl hne
  | cons c names ih =>
    obtain ⟨hsome, hnone⟩ := hs.child c
    by_cases hn : names = []
    · subst hn
      exact ⟨hsome, hnone⟩
    · rw [entryAt_cons _ _ _ hn, List.append_cons d c names]
      have hfrom : treeOf fs.nodes (d ++ [c]) = none → treeOf fs.nodes (d ++ [c] ++ names) = none :=
        fun hfree => h.closed.none_from (by simp) hfree (List.prefix_append _ _)
      cases he : entryIn cs noFaults st hash c with
      | none => exact ⟨fun e hcon => (by cases hcon), fun _ => hfrom (hnone he)⟩
      | some e =>
        obtain ⟨n, hat, hfile | ⟨hdir, hisDir, fuel', hsub⟩⟩ := hsome e he
        · rw [Option.bind_some, if_neg (by simp [isReg_not_isDir hfile.2.1])]
          refine ⟨fun e hcon => (by cases hcon), fun _ => ?_⟩
          have hbelow : Below (d ++ [c]) (d ++ [c] ++ names) :=
            (below_iff _ _).mpr ⟨List.prefix_append _ _, fun heq => hn (by simpa using heq)⟩
          apply h.closed.none_below ?_ hbelow
          rintro (hnil | ⟨m, hm, hmd⟩)
          · simp at hnil
          · obtain rfl := Option.some.inj (hat.symm.trans hm)
            have hmd' : n.type = .dir := hmd
            rw [hfile.1] at hmd'
            cases hmd'
        · rw [Option.bind_some, if_pos hisDir]
          exact ih hsub hn

/-- **The snapshot has what the filesystem has**, path by path. -/
theorem StandsFor.content {fuel : Nat} {root : Bytes} (hs : StandsFor cs st fs fuel [] root) :
    snapContent cs noFaults st root = vfsContent fs := by
  funext p
  by_cases hne : p = []
  · subst hne
    exact (vfsContent_closed h).root.symm
  · obtain ⟨hsome, hnone⟩ := hs.reached h p hne
    unfold snapContent vfsContent image
    cases he : entryAt cs noFaults st root p with
    | none =>
      have hfree : treeOf fs.nodes p = none := hnone he
      rw [hfree]
      rfl
    | some e =>
      obtain ⟨n, hn, hstands⟩ := hsome e he
      have hn' : treeOf fs.nodes p = some n := hn
      rw [hn', Option.bind_some, Option.map_some]
      rcases hstands with ⟨hfile, hreg, hopen⟩ | ⟨hdir, hisDir, -⟩
      · rw [content_file hreg hopen]
        unfold VfsNode.content
        rw [if_neg (by rw [hfile]; decide)]
      · rw [content_dir hisDir]
        unfold VfsNode.content
        rw [if_pos hdir]

/-- An entry's path is that of a node. -/
theorem StandsFor.path {fuel : Nat} {root : Bytes} (hs : StandsFor cs st fs fuel [] root) {p : List Bytes} {e : Entry}
    (he : entryAt cs noFaults st root p = some e) : ∃ n ∈ fs.nodes, Components p ∧ n.path = pathOf p := by
  have hne : p ≠ [] := by
    rintro rfl
    cases he
  obtain ⟨n, hn, -⟩ := (hs.reached h p hne).1 e he
  obtain ⟨hm, hk⟩ := (h.treeOf_eq_some p n).mp hn
  obtain ⟨hc, -, hp⟩ := (h.normal n hm).key
  rw [hk] at hc hp
  exact ⟨n, hm, hc, hp⟩

end

/-! ## There and back -/

/-- A filesystem and a depot before a snapshot: the nodes are a tree of paths that pass the check, the objects are
within the reader's limits, each has an address of its own, and what the depot has there already is the same. -/
structure Snapshotable (cs : Codecs) (st : Store) (fs : Vfs) (useHtree : Bool) (fuel : Nat) : Prop where
  shaped : Shaped fs.nodes
  valid : ∀ n ∈ fs.nodes, validatePathComponents n.path = .ok
  fits : ∀ o ∈ snapshotObjects fs fuel [47], o.Fits useHtree
  distinct : ∀ o ∈ snapshotObjects fs fuel [47], ∀ o' ∈ snapshotObjects fs fuel [47], o.address = o'.address → o = o'
  noneOther : NoneOther cs (snapshotObjects fs fuel [47]) st

/-- A snapshot stands for the filesystem. -/
theorem snapStore_standsFor {cs : Codecs} {cfg : CompressConfig} {flt : Faults} {fs : Vfs} {noMem noRoom : Nat → Bool}
    {useHtree : Bool} {now : Int} {fuel : Nat} {st st' : Store} {hash : Bytes} (h : Snapshotable cs st fs useHtree fuel)
    (hrun : vfsSnapStore cs cfg flt fs adminCred noMem noRoom useHtree now fuel st = (some (.ok hash), st')) :
    StandsFor cs st' fs fuel [] hash :=
  (snapDir_stored h.shaped h.valid h.distinct h.fits fuel [] (Or.inl rfl) (by decide) (fun _ ho => ho) h.noneOther
    hrun).2.2.2

/-- What stands for a filesystem is restored as the filesystem. -/
theorem StandsFor.restored {cs : Codecs} {st : Store} {fs : Vfs} (h : Shaped fs.nodes)
    (hvalid : ∀ n ∈ fs.nodes, validatePathComponents n.path = .ok) {fuel : Nat} {root : Bytes}
    (hs : StandsFor cs st fs fuel [] root) (cred : VfsCred) (now : Int) (umask : BitVec 32) :
    ∃ fs', vfsSnapRestore cs noFaults st noVfsFaults cred now fuel (vfsNew 0 umask) root = (some .ok, fs') ∧
      vfsTriples fs' = vfsTriples fs := by
  have hread := hs.within.readable
  have hpaths : PathsRestorable cs noFaults st root := by
    intro p e he
    obtain ⟨n, hn, hc, hp⟩ := hs.path h he
    exact ⟨hc, by rw [← hp]; exact ((validate_iff (h.normal n hn)).mp (hvalid n hn)).1⟩
  have hnames : ∀ p e, entryAt cs noFaults st root p = some e → validatePathComponents (pathOf p) = .ok := by
    intro p e he
    obtain ⟨n, hn, -, hp⟩ := hs.path h he
    rw [← hp]
    exact hvalid n hn
  have hgoes := restoreDir_goes hread hpaths hnames cred now fuel [] root rfl hs.within (vfsNew 0 umask) shaped_nil
    (Or.inl rfl) (fun p _ => vfsNew_empty umask p) rfl
  obtain ⟨fs', hrun⟩ : ∃ fs', vfsSnapRestore cs noFaults st noVfsFaults cred now fuel (vfsNew 0 umask) root =
      (some .ok, fs') := ⟨_, Prod.ext hgoes rfl⟩
  refine ⟨fs', hrun, ?_⟩
  rw [((restored_iff hread noVfsFaults cred now umask fuel hrun).mpr hpaths).1, hs.content h, vfsTriples_eq h]

/-- **A restore into an empty filesystem is exact** when no name is `.` or `..` and every path fits the buffer, and
only then; and **a snapshot that succeeds is restored as the filesystem it was taken of**. -/
theorem snap_restore_exact (cs : Codecs) :
    (∀ (flt : Faults) (st : Store) (root : Bytes), TreeReadable cs flt st root →
      ∀ (vflt : VfsFaults) (cred : VfsCred) (now : Int) (umask : BitVec 32) (fuel : Nat) (fs' : Vfs),
        vfsSnapRestore cs flt st vflt cred now fuel (vfsNew 0 umask) root = (some .ok, fs') →
        ((vfsTriples fs' = triples (snapContent cs flt st root) ∧ (paths fs').Nodup) ↔
          PathsRestorable cs flt st root)) ∧
    ∀ (cfg : CompressConfig) (flt : Faults) (fs : Vfs) (noMem noRoom : Nat → Bool) (useHtree : Bool) (fuel : Nat)
      (st st' : Store) (hash : Bytes) (now : Int), Snapshotable cs st fs useHtree fuel →
      vfsSnapStore cs cfg flt fs adminCred noMem noRoom useHtree now fuel st = (some (.ok hash), st') →
      ∀ (cred : VfsCred) (later : Int) (umask : BitVec 32), ∃ fs',
        vfsSnapRestore cs noFaults st' noVfsFaults cred later fuel (vfsNew 0 umask) hash = (some .ok, fs') ∧
          vfsTriples fs' = vfsTriples fs := by
  refine ⟨fun flt st root hread vflt cred now umask fuel fs' hrun =>
    restored_iff hread vflt cred now umask fuel hrun, ?_⟩
  intro cfg flt fs noMem noRoom useHtree fuel st st' hash now hready hrun cred later umask
  exact (snapStore_standsFor hready hrun).restored hready.shaped hready.valid cred later umask

/-! ## Two trees and a filesystem -/

theorem dotdotStore_oneHash :
    casTreeLoad [] noFaults dotdotStore oneHash = .ok [childEntry 0o100644#32 'x' twoHash] :=
  casTreeLoad_oneEntry [] dotdotStore (by decide) rfl rfl
    (Entry.Printable.mk (lowerHash_replicate _ (by decide)) (by decide)).written (by decide)

theorem dotdotStore_zeroHash :
    casTreeLoad [] noFaults dotdotStore zeroHash = .ok [⟨0o040755#32, 0, 0, 0, 0, oneHash, lit ['.', '.']⟩] :=
  casTreeLoad_oneEntry [] dotdotStore (by decide) rfl rfl
    (Entry.Printable.mk (lowerHash_replicate _ (by decide)) (by decide)).written (by decide)

theorem within_oneHash : Within [] noFaults dotdotStore 1 oneHash := by
  refine ⟨_, dotdotStore_oneHash, fun e he => ?_⟩
  obtain rfl := List.mem_singleton.mp he
  exact Or.inl ⟨by decide, [1], by decide +kernel⟩

theorem within_zeroHash : Within [] noFaults dotdotStore 2 zeroHash := by
  refine ⟨_, dotdotStore_zeroHash, fun e he => ?_⟩
  obtain rfl := List.mem_singleton.mp he
  exact Or.inr ⟨by decide, within_oneHash⟩

/-- A filesystem with one file, `/a`. -/
def oneFileVfs : Vfs :=
  ((VfsCall.write (lit ['/', 'a']).bytes [7] false).run noVfsFaults adminCred 0 (vfsNew 0 0#32)).2

instance (useHtree : Bool) : (o : SnapObject) → Decidable (o.Fits useHtree)
  | .blob _ => inferInstanceAs (Decidable (_ ≤ _))
  | .tree _ => inferInstanceAs (Decidable (_ ≤ _))

theorem snapshotable_oneFile : Snapshotable [] Store.empty oneFileVfs false 1 where
  shaped := (VfsRun.call .new adminCred 0 (.write (lit ['/', 'a']).bytes [7] false) (by decide)).inv.shaped
  valid := by decide +kernel
  fits := by decide +kernel
  distinct o ho o' ho' := List.inj_on_of_nodup_map (f := SnapObject.address) (by decide +kernel) ho ho'
  noneOther o _ hstored := absurd (fresh_empty o.address) hstored

theorem restored_pair {r : Restored} {rc : Option Status} (h : r.1 = rc) : r = (rc, r.2) := by rw [← h]

theorem snapped_ok {α : Type} {r : Snapped α} (h : (r.1.bind Except.toOption).isSome = true) :
    ∃ a st', r = (some (.ok a), st') := by
  obtain ⟨rc, st'⟩ := r
  obtain ⟨a, ha⟩ := Option.isSome_iff_exists.mp h
  obtain ⟨x, rfl, hx⟩ := Option.bind_eq_some_iff.mp ha
  cases x with
  | error rc => cases hx
  | ok y =>
    obtain rfl := Option.some.inj hx
    exact ⟨y, st', rfl⟩

/-- A tree of one file is restored exactly, and so is a snapshot of one file. -/
theorem snap_restore_exact_oneFile :
    (vfsTriples (vfsSnapRestore [] noFaults dotdotStore noVfsFaults adminCred 0 1 (vfsNew 0 0#32) oneHash).2 =
      triples (snapContent [] noFaults dotdotStore oneHash) ∧
      (paths (vfsSnapRestore [] noFaults dotdotStore noVfsFaults adminCred 0 1 (vfsNew 0 0#32) oneHash).2).Nodup ↔
        PathsRestorable [] noFaults dotdotStore oneHash) ∧
    ∃ st' hash fs', vfsSnapStore [] casCompressionDefault noFaults oneFileVfs adminCred (fun _ => false)
        (fun _ => false) false 0 1 Store.empty = (some (.ok hash), st') ∧
      vfsSnapRestore [] noFaults st' noVfsFaults adminCred 0 1 (vfsNew 0 0#32) hash = (some .ok, fs') ∧
      vfsTriples fs' = vfsTriples oneFileVfs := by
  have hok : (vfsSnapRestore [] noFaults dotdotStore noVfsFaults adminCred 0 1 (vfsNew 0 0#32) oneHash).1 =
    some .ok := by
    decide +kernel
  have hstored : ((vfsSnapStore [] casCompressionDefault noFaults oneFileVfs adminCred (fun _ => false) (fun _ => false)
      false 0 1 Store.empty).1.bind Except.toOption).isSome = true := by
    decide +kernel
  obtain ⟨hash, st', hrun⟩ := snapped_ok hstored
  obtain ⟨fs', hrestored, heq⟩ := (snap_restore_exact []).2 casCompressionDefault noFaults oneFileVfs (fun _ => false)
    (fun _ => false) false 1 Store.empty st' hash 0 snapshotable_oneFile hrun adminCred 0 0#32
  exact ⟨(snap_restore_exact []).1 noFaults dotdotStore oneHash within_oneHash.readable noVfsFaults adminCred 0 0#32 1 _
    (restored_pair hok), st', hash, fs', hrun, hrestored, heq⟩

/-- **The file of a directory `..`** is restored as `/x`, and the restore succeeds. -/
theorem snap_restore_dotdot : TreeReadable [] noFaults dotdotStore zeroHash ∧
    (vfsSnapRestore [] noFaults dotdotStore noVfsFaults adminCred 0 2 (vfsNew 0 0#32) zeroHash).1 = some .ok ∧
    vfsTriples (vfsSnapRestore [] noFaults dotdotStore noVfsFaults adminCred 0 2 (vfsNew 0 0#32) zeroHash).2 ≠
      triples (snapContent [] noFaults dotdotStore zeroHash) := by
  have hread := within_zeroHash.readable
  have hok : (vfsSnapRestore [] noFaults dotdotStore noVfsFaults adminCred 0 2 (vfsNew 0 0#32) zeroHash).1 =
    some .ok := by
    decide +kernel
  have hnodup :
    (paths (vfsSnapRestore [] noFaults dotdotStore noVfsFaults adminCred 0 2 (vfsNew 0 0#32) zeroHash).2).Nodup := by
    decide +kernel
  refine ⟨hread, hok, fun heq => ?_⟩
  have hpaths := (restored_iff hread noVfsFaults adminCred 0 0#32 2 (restored_pair hok)).mp ⟨heq, hnodup⟩
  have hentry := entryIn_of_mem dotdotStore_zeroHash (List.mem_singleton_self _)
  have hcomps := (hpaths [(lit ['.', '.']).bytes] _ ((entryAt_single zeroHash _).trans hentry)).1
  exact (hcomps.all _ (List.mem_singleton_self _)).2.2 (by decide)

end Smolvfs
