import Smolvfs.FileTree
import Smolvfs.VfsRuns
import Smolvfs.VfsValid
import Smolvfs.VfsFrame

/-!
# The array of nodes refines the tree

The nodes of `vfs.c` stand for a `FileTree` (`Vfs.abs`), and each call answers as the
tree does and leaves what the tree becomes: `vfsWrite_abs`, `vfsMkdir_abs`,
`vfsDelete_abs`, `vfsDeleteRecursive_abs`, `vfsRename_abs`, `vfsCopy_abs` and
`vfsChmod_abs`, with `vfsStat_abs`, `vfsRead_abs` and `vfsList_abs` for the calls that
only look.  `ensureParents_abs` is the loop over a path's parents.

`vfs_refines_tree`: so do all runs from a new filesystem on.
-/

namespace Smolvfs

open Octets Keyed Names PathTree

/-! ## The tree of the nodes -/

/-- A node without its path. -/
def VfsNode.entry (n : VfsNode) : FileEntry := ⟨n.type, n.mode, n.owner, n.ctime, n.mtime, n.data⟩

/-- What the array stands for. -/
def Vfs.abs (fs : Vfs) : FileTree := ⟨fun p => (treeOf fs.nodes p).map VfsNode.entry, fs.quota, fs.umask⟩

/-- What a call answers and leaves. -/
def absReply (r : VfsStatus × Vfs) : VfsStatus × FileTree := (r.1, r.2.abs)

theorem abs_tree (fs : Vfs) (p : List Bytes) : fs.abs.tree p = (treeOf fs.nodes p).map VfsNode.entry := rfl

/-- A bit of the mode. -/
theorem and_bit (mode : BitVec 32) {mask : BitVec 32} {bit : Nat} (hmask : mask = BitVec.twoPow 32 bit) (hbit : bit < 32) :
    (mode &&& mask != 0#32) = mode.getLsbD bit := by
  have hne : BitVec.twoPow 32 bit ≠ 0#32 := by
    intro heq
    have := congrArg (fun x => x.getLsbD bit) heq
    simp [hbit] at this
  rw [hmask, BitVec.and_twoPow]
  cases mode.getLsbD bit with
  | true => simpa using hne
  | false => simp

theorem checkPerm_bit (n : VfsNode) (cred : VfsCred) {perm : BitVec 32} {bit : Nat} (hbit : bit < 26)
    (h0 : perm = BitVec.twoPow 32 bit) (h3 : perm <<< 3 = BitVec.twoPow 32 (bit + 3))
    (h6 : perm <<< 6 = BitVec.twoPow 32 (bit + 6)) : checkPerm n cred perm = n.entry.allows cred bit := by
  unfold checkPerm FileEntry.allows
  rw [and_bit n.mode h0 (by omega), and_bit n.mode h3 (by omega), and_bit n.mode h6 (by omega)]
  rfl

theorem checkPerm_read (n : VfsNode) (cred : VfsCred) : checkPerm n cred PERM_R = n.entry.allows cred readBit :=
  checkPerm_bit n cred (by decide) (by decide) (by decide) (by decide)

theorem checkPerm_write (n : VfsNode) (cred : VfsCred) : checkPerm n cred PERM_W = n.entry.allows cred writeBit :=
  checkPerm_bit n cred (by decide) (by decide) (by decide) (by decide)

/-- The counter is the space in use. -/
theorem abs_used {fs : Vfs} (h : Distinct nodeKey fs.nodes) : fs.abs.used = fileBytes fs.nodes := by
  unfold FileTree.used fileBytes
  rw [← finsum_lookup h fileSize]
  congr 1
  funext p
  show (((treeOf fs.nodes p).map VfsNode.entry).map FileEntry.size).getD 0 = _
  rw [Option.map_map]
  rfl

/-- **A path is where it leads.** -/
theorem parse_cases (path : Bytes) :
    (vfsNormalize VFS_PATH_MAX path = .error .ebadpath ∧ parsePath path = .error .ebadpath) ∨
      ∃ p, Components p ∧ vfsNormalize VFS_PATH_MAX path = .ok (pathOf p) ∧ parsePath path = .ok p ∧
        (pathOf p).length < VFS_PATH_MAX := by
  have heq := vfsNormalize_eq VFS_PATH_MAX path
  unfold parsePath
  by_cases hgood : path.head? = some 47 ∧ path.length < VFS_PATH_MAX
  · have hlen := length_pathOf_components path hgood.1
    rw [referencePath_eq, if_pos ⟨hgood.1, hgood.2, by omega⟩] at heq
    rw [if_pos hgood, referenceComponents_eq]
    exact .inr ⟨_, pathComponents_ok path, heq, rfl, by omega⟩
  · rw [if_neg fun hall => hgood ⟨hall.1, hall.2.1⟩] at heq
    rw [if_neg hgood]
    exact .inl ⟨heq, rfl⟩

theorem validate_or (path : Bytes) : validatePathComponents path = .ok ∨ validatePathComponents path = .ebadpath := by
  unfold validatePathComponents
  split
  · exact .inl rfl
  · split
    · exact .inr rfl
    · split
      · exact .inl rfl
      · exact .inr rfl

theorem validate_goodNames (p : List Bytes) (hc : Components p) (hne : p ≠ []) (hlen : (pathOf p).length < VFS_PATH_MAX) :
    validatePathComponents (pathOf p) = if GoodNames p then .ok else .ebadpath := by
  have hiff : validatePathComponents (pathOf p) = .ok ↔ GoodNames p := by
    rw [validate_iff ⟨p, hc, hne, rfl⟩, pathOf_ne_nil p hne]
    constructor
    · rintro ⟨-, htaken⟩ c hcm x hx
      exact (htaken x ((mem_join 47 x p).mpr (.inr ⟨c, hcm, hx⟩))).resolve_left fun h => (hc.names c hcm).2 (h ▸ hx)
    · intro hgood
      refine ⟨by rwa [← pathOf_ne_nil p hne], fun x hx => ?_⟩
      rcases (mem_join 47 x p).mp hx with ⟨-, rfl⟩ | ⟨c, hcm, hx⟩
      · exact .inl rfl
      · exact .inr (hgood c hcm x hx)
  split
  · next hgood => exact hiff.mpr hgood
  · next hbad => exact (validate_or _).resolve_left (mt hiff.mp hbad)

/-! ## Parents -/

theorem Grown.quota {fs fs' : Vfs} {comps : List Bytes} {added : List VfsNode} (hg : Grown fs fs' comps added) :
    fs'.quota = fs.quota := by
  rw [hg.eq]

theorem Grown.umask {fs fs' : Vfs} {comps : List Bytes} {added : List VfsNode} (hg : Grown fs fs' comps added) :
    fs'.umask = fs.umask := by
  rw [hg.eq]

/-- What can have entries below it. -/
def FileEntry.IsDir (e : FileEntry) : Prop := e.type = .dir

theorem abs_closed {fs : Vfs} (h : Shaped fs.nodes) : Closed FileEntry.IsDir fs.abs.tree :=
  h.closed.map VfsNode.entry fun _ hn => hn

theorem dirAt_abs {fs : Vfs} {p : List Bytes} (h : DirAt isDirNode (treeOf fs.nodes) p) :
    DirAt FileEntry.IsDir fs.abs.tree p := by
  rcases h with hnil | ⟨n, hn, hdir⟩
  · exact .inl hnil
  · exact .inr ⟨n.entry, by rw [abs_tree, hn]; rfl, hdir⟩

theorem newDir_mode (mode : BitVec 32) :
    VFS_MODE_DIR_DEFAULT &&& mode &&& 0o777#32 = VFS_MODE_DIR_DEFAULT &&& mode := by
  unfold VFS_MODE_DIR_DEFAULT
  rw [BitVec.and_comm, ← BitVec.and_assoc, BitVec.and_self]

theorem newFile_mode (mode : BitVec 32) :
    VFS_MODE_FILE_DEFAULT &&& mode &&& 0o777#32 = VFS_MODE_FILE_DEFAULT &&& mode := by
  unfold VFS_MODE_FILE_DEFAULT
  rw [BitVec.and_assoc, BitVec.and_comm mode, ← BitVec.and_assoc]
  rfl

theorem entry_newDir (fs : Vfs) (path : Bytes) (cred : VfsCred) (now : Int) :
    (newNode path .dir (VFS_MODE_DIR_DEFAULT &&& ~~~fs.umask) cred.uid [] now).entry = fs.abs.newDir cred now := by
  unfold newNode VfsNode.entry FileTree.newDir
  simp only [newDir_mode]
  rfl

theorem entry_newFile (fs : Vfs) (path data : Bytes) (cred : VfsCred) (now : Int) :
    (newNode path .file (VFS_MODE_FILE_DEFAULT &&& ~~~fs.umask) cred.uid data now).entry =
      fs.abs.newFile cred data now := by
  unfold newNode VfsNode.entry FileTree.newFile
  simp only [newFile_mode]
  rfl

section
variable {s : FileTree} (hs : Closed FileEntry.IsDir s.tree) {p : List Bytes}

/-- Nothing above a directory is a file. -/
theorem checkDir_dirAt (hs : Closed FileEntry.IsDir s.tree) (hp : DirAt FileEntry.IsDir s.tree p) (mk : Bool) : s.checkDir p mk = .ok := by
  unfold FileTree.checkDir
  cases mk with
  | true =>
    refine (if_pos rfl).trans (if_neg ?_)
    rintro ⟨q, e, hpre, hq, hfile⟩
    have hat : DirAt FileEntry.IsDir s.tree q := by
      by_cases heq : q = p
      · exact heq ▸ hp
      · rcases hp with rfl | ⟨d, hd, -⟩
        · exact absurd (List.prefix_nil.mp hpre) heq
        · exact hs.above hd ((below_iff q p).mpr ⟨hpre, heq⟩)
    rcases hat with rfl | ⟨d, hd, hdir⟩
    · rw [hs.root] at hq
      cases hq
    · obtain rfl := Option.some.inj (hq.symm.trans hd)
      exact hfile hdir
  | false =>
    rw [if_neg (by simp)]
    rcases hp with rfl | ⟨d, hd, hdir⟩
    · rfl
    · unfold FileTree.get
      by_cases hnil : p = []
      · rw [if_pos hnil]
        rfl
      · rw [if_neg hnil, hd]
        exact if_pos hdir

/-- A path that is not in the tree may be filled in where its parent may be. -/
theorem checkDir_concat (n : Bytes) (hfree : s.tree (p ++ [n]) = none) : s.checkDir (p ++ [n]) true = s.checkDir p true := by
  unfold FileTree.checkDir
  rw [if_pos rfl, if_pos rfl]
  congr 1
  rw [eq_iff_iff]
  constructor
  · rintro ⟨q, e, hpre, hq, hfile⟩
    rcases (prefix_concat_iff q p n).mp hpre with rfl | hpre
    · rw [hfree] at hq
      cases hq
    · exact ⟨q, e, hpre, hq, hfile⟩
  · rintro ⟨q, e, hpre, hq, hfile⟩
    exact ⟨q, e, hpre.trans (List.prefix_append _ _), hq, hfile⟩

end

theorem checkDir_get {s s' : FileTree} {p : List Bytes} (h : s.get p = s'.get p) :
    s.checkDir p false = s'.checkDir p false := by
  unfold FileTree.checkDir
  rw [if_neg Bool.false_ne_true, if_neg Bool.false_ne_true, h]

/-- **Creating the parents fills in what is missing**, if nothing above is a file. -/
theorem ensureParents_abs (cred : VfsCred) (now : Int) (fuel : Nat) (fs : Vfs) (h : Shaped fs.nodes) (comps : List Bytes)
    (c : Bytes) (hc : Components (comps ++ [c])) (hlen : (pathOf (comps ++ [c])).length ≤ VFS_PATH_MAX)
    (hfuel : comps.length < fuel) :
    let r := ensureParents noVfsFaults cred now fuel fs (pathOf (comps ++ [c]))
    r.1 = fs.abs.checkDir comps true ∧
      (r.1 = .ok → r.2.abs.tree = fill comps (fs.abs.newDir cred now) fs.abs.tree) := by
  induction fuel generalizing comps c with
  | zero => omega
  | succ fuel ih =>
    obtain ⟨hinit, hlast⟩ := (components_append comps [c]).mp hc
    unfold ensureParents
    rw [pathParent_concat comps c (hlast.names c (by simp)) hlen]
    simp only []
    split
    · next hroot =>
      obtain rfl := (pathOf_eq_root comps hinit.names).mp hroot
      exact ⟨(checkDir_dirAt (abs_closed h) (.inl rfl) true).symm, fun _ => (fill_root _ _).symm⟩
    · next hroot =>
      have hne : comps ≠ [] := fun hnil => hroot ((pathOf_eq_root comps hinit.names).mpr hnil)
      rw [nodeAt_pathOf fs h.normal comps hinit]
      split
      · next pn hpn =>
        split
        · next hfile =>
          refine ⟨?_, fun hok => by cases hok⟩
          unfold FileTree.checkDir
          rw [if_pos rfl, if_pos]
          exact ⟨comps, pn.entry, List.prefix_refl _, by rw [abs_tree, hpn]; rfl, hfile⟩
        · next hdir =>
          have hat : DirAt FileEntry.IsDir fs.abs.tree comps := dirAt_abs (.inr ⟨pn, hpn, not_not.mp hdir⟩)
          exact ⟨(checkDir_dirAt (abs_closed h) hat true).symm, fun _ => ((abs_closed h).fill_eq hat _).symm⟩
      · next hnone =>
        obtain ⟨init, last, hcat⟩ := (List.eq_nil_or_concat comps).resolve_left hne
        rw [List.concat_eq_append] at hcat
        subst hcat
        have hlen' : (pathOf (init ++ [last])).length ≤ VFS_PATH_MAX := by
          rw [pathOf_ne_nil _ (by simp), join_concat] at hlen
          rw [pathOf_ne_nil _ (by simp)]
          rw [List.length_append] at hlen
          omega
        have hfuel' : init.length < fuel := by
          rw [List.length_append, List.length_singleton] at hfuel
          omega
        have hfree : fs.abs.tree (init ++ [last]) = none := by rw [abs_tree, hnone]; rfl
        obtain ⟨hstatus, htree⟩ := ih init last hinit hlen' hfuel'
        have hok := ensureParents_ok cred now fuel fs h init last hinit hlen' hfuel'
        obtain ⟨added, hg⟩ := ensureParents_grown noVfsFaults cred now fuel fs init last hinit hlen'
        rw [checkDir_concat last hfree]
        split
        · next fs1 hrec =>
          simp only [hrec] at hstatus htree hok hg
          obtain ⟨-, hshape, hdir⟩ := hok.resolve_right (by simp)
          have hfree1 := hg.free ((components_append init [last]).mp hinit).1 _ (not_prefix_init init last) hnone
          obtain ⟨-, ht⟩ := hshape.append init last
            (newNode (pathOf (init ++ [last])) .dir (VFS_MODE_DIR_DEFAULT &&& ~~~fs1.umask) cred.uid [] now) hinit rfl hfree1
            hdir
          refine ⟨hstatus, fun _ => ?_⟩
          rw [fill_concat init last _ _ hfree, ← htree trivial]
          funext q
          show (treeOf (fs1.nodes ++ [newNode _ _ _ _ _ _]) q).map VfsNode.entry = _
          rw [ht]
          by_cases hq : q = init ++ [last]
          · subst hq
            rw [Function.update_self, Function.update_self, Option.map_some, entry_newDir]
            unfold FileTree.newDir
            rw [show fs1.abs.umask = fs.abs.umask from hg.umask]
          · rw [Function.update_of_ne hq, Function.update_of_ne hq]
            rfl
        · next r hrec =>
          refine ⟨hstatus, fun hrok => ?_⟩
          exact (hrec _ (Prod.ext hrok rfl)).elim

theorem checkParent_abs {fs : Vfs} (h : Shaped fs.nodes) (comps : List Bytes) (c : Bytes)
    (hc : Components (comps ++ [c])) (hlen : (pathOf (comps ++ [c])).length ≤ VFS_PATH_MAX) :
    checkParent fs (pathOf (comps ++ [c])) = fs.abs.checkDir comps false := by
  obtain ⟨hinit, hlast⟩ := (components_append comps [c]).mp hc
  unfold checkParent FileTree.checkDir FileTree.get
  rw [pathParent_concat comps c (hlast.names c (by simp)) hlen, if_neg (by simp)]
  simp only []
  by_cases hnil : comps = []
  · rw [if_pos ((pathOf_eq_root comps hinit.names).mpr hnil), if_pos hnil]
    rfl
  · rw [if_neg fun hroot => hnil ((pathOf_eq_root comps hinit.names).mp hroot), if_neg hnil,
      nodeAt_pathOf fs h.normal comps hinit, abs_tree]
    cases treeOf fs.nodes comps with
    | none => rfl
    | some pn =>
      show (if pn.type ≠ .dir then VfsStatus.enotdir else .ok) = if pn.type = .dir then .ok else .enotdir
      rw [ite_not]

theorem prepareParents_abs (cred : VfsCred) (now : Int) (fs : Vfs) (h : Shaped fs.nodes) (comps : List Bytes) (c : Bytes)
    (hc : Components (comps ++ [c])) (hlen : (pathOf (comps ++ [c])).length ≤ VFS_PATH_MAX) (mk : Bool) :
    let r := prepareParents noVfsFaults fs cred (pathOf (comps ++ [c])) mk now
    r.1 = fs.abs.checkDir comps mk ∧
      (r.1 = .ok → r.2.abs.tree = if mk then fill comps (fs.abs.newDir cred now) fs.abs.tree else fs.abs.tree) := by
  unfold prepareParents
  cases mk with
  | true =>
    have hfuel : comps.length < (pathOf (comps ++ [c])).length := by
      have hle := length_le_join (comps ++ [c])
      rw [pathOf_ne_nil _ (by simp)]
      rw [List.length_append, List.length_singleton] at hle
      omega
    exact ensureParents_abs cred now _ fs h comps c hc hlen hfuel
  | false => exact ⟨checkParent_abs h comps c hc hlen, fun _ => rfl⟩

/-- The parents of what is under a directory are all there. -/
theorem prepareParents_dirAt (cred : VfsCred) (now : Int) {fs : Vfs} (h : Shaped fs.nodes) {path : Bytes}
    {comps : List Bytes} {c : Bytes} (hp : Placed path comps c) (mk : Bool)
    (hdir : DirAt isDirNode (treeOf fs.nodes) comps) :
    prepareParents noVfsFaults fs cred (pathOf (comps ++ [c])) mk now = (.ok, fs) := by
  unfold prepareParents
  cases mk with
  | true =>
    obtain ⟨hinit, hlast⟩ := (components_append comps [c]).mp hp.all
    have hpos : 0 < (pathOf (comps ++ [c])).length := by
      rw [pathOf_ne_nil _ (by simp), join_concat, List.length_append]
      exact Nat.lt_add_left _ (Nat.succ_pos _)
    obtain ⟨fuel, hfuel⟩ : ∃ fuel, (pathOf (comps ++ [c])).length = fuel + 1 := ⟨_, (Nat.succ_pred_eq_of_pos hpos).symm⟩
    rw [hfuel, if_pos rfl]
    unfold ensureParents
    rw [pathParent_concat comps c (hlast.names c (by simp)) (Nat.le_of_lt hp.short)]
    simp only []
    rcases hdir with rfl | ⟨d, hd, hdd⟩
    · rfl
    · split
      · rfl
      · rw [nodeAt_pathOf fs h.normal comps hinit, hd]
        exact if_neg (not_not.mpr hdd)
  | false => exact Prod.ext (checkParent_of_dirAt h comps c hp.all (Nat.le_of_lt hp.short) hdir) rfl

theorem map_update {V W : Type} (t : Tree Bytes V) (p : List Bytes) (v : Option V) (f : V → W) :
    (fun q => (Function.update t p v q).map f) = Function.update (fun q => (t q).map f) p (v.map f) := by
  funext q
  by_cases hq : q = p
  · subst hq
    rw [Function.update_self, Function.update_self]
  · rw [Function.update_of_ne hq, Function.update_of_ne hq]

/-! ## Writing and creating -/

section
variable {fs : Vfs} (h : VfsInv fs) (cred : VfsCred) (now : Int)

include h

theorem used_eq : fs.usage = fs.abs.used := h.usage.trans (abs_used h.shaped.distinct).symm

/-- The quota is kept as it is said. -/
theorem overQuota_iff {old len : Nat} (hold : old ≤ fileBytes fs.nodes) (hfit : fileBytes fs.nodes + len < 2 ^ 63) :
    (fs.quota > 0 ∧ add64 (sub64 fs.usage old) len > fs.quota) ↔ fs.abs.OverQuota old len := by
  have husage := h.usage
  unfold FileTree.OverQuota
  rw [← used_eq h, add64_sub64 _ _ _ (by omega) (by omega) (by omega)]
  rfl

/-- A node put where there is none, once its parents are there. -/
theorem insert_abs {path : Bytes} {init : List Bytes} {c : Bytes} {mk : Bool} (hp : Placed path init c)
    (hfree : treeOf fs.nodes (init ++ [c]) = none) {fs1 : Vfs}
    (hrun : prepareParents noVfsFaults fs cred (pathOf (init ++ [c])) mk now = (.ok, fs1)) (n : VfsNode)
    (hn : n.path = pathOf (init ++ [c])) (usage : Nat) :
    (VfsStatus.ok, (Vfs.mk (fs1.nodes ++ [n]) usage fs1.quota fs1.umask).abs) =
      fs.abs.insert cred now (init ++ [c]) mk n.entry := by
  obtain ⟨-, hs, hdir, added, hg⟩ := (hp.parents h.shaped cred path mk now hrun).resolve_right (by simp)
  obtain ⟨hstatus, htree⟩ := prepareParents_abs cred now fs h.shaped init c hp.all (Nat.le_of_lt hp.short) mk
  rw [hrun] at hstatus htree
  have hfree1 := hg.free ((components_append init [c]).mp hp.all).1 _ (not_prefix_init init c) hfree
  obtain ⟨-, ht⟩ := hs.append init c n hp.all hn hfree1 hdir
  unfold FileTree.insert
  rw [List.dropLast_concat, if_neg (not_not.mpr hstatus.symm), ← htree rfl]
  refine Prod.ext rfl ?_
  show FileTree.mk (fun q => (treeOf (fs1.nodes ++ [n]) q).map VfsNode.entry) fs1.quota fs1.umask = _
  rw [ht, show fs1.quota = fs.abs.quota from hg.quota,
    show fs1.umask = fs.abs.umask from hg.umask]
  rw [map_update]
  rfl

/-- Where the parents cannot be there, nothing is put. -/
theorem insert_refused {path : Bytes} {init : List Bytes} {c : Bytes} {mk : Bool} (hp : Placed path init c) {fs1 : Vfs}
    {rc : VfsStatus} (hrun : prepareParents noVfsFaults fs cred (pathOf (init ++ [c])) mk now = (rc, fs1)) (hrc : rc ≠ .ok)
    (e : FileEntry) : (rc, fs1.abs) = fs.abs.insert cred now (init ++ [c]) mk e := by
  obtain ⟨-, rfl⟩ := (hp.parents h.shaped cred path mk now hrun).resolve_left fun hok => hrc hok.1
  obtain ⟨hstatus, -⟩ := prepareParents_abs cred now fs1 h.shaped init c hp.all (Nat.le_of_lt hp.short) mk
  rw [hrun] at hstatus
  unfold FileTree.insert
  rw [List.dropLast_concat, if_pos (hstatus ▸ hrc), ← hstatus]

theorem vfsWrite_abs (path data : Bytes) (mk : Bool) (hfit : fileBytes fs.nodes + data.length < 2 ^ 63) :
    absReply (vfsWrite noVfsFaults fs cred path data mk now) = fs.abs.write cred now path data mk := by
  unfold vfsWrite FileTree.write
  rcases parse_cases path with ⟨hnorm, hparse⟩ | ⟨p, hc, hnorm, hparse, hlen⟩
  · rw [hnorm, hparse]
    rfl
  rw [hnorm, hparse]
  simp only []
  by_cases hroot : p = []
  · rw [if_pos ((pathOf_eq_root p hc.names).mpr hroot), if_pos hroot]
    rfl
  rw [if_neg fun heq => hroot ((pathOf_eq_root p hc.names).mp heq), if_neg hroot, validate_goodNames p hc hroot hlen]
  by_cases hgood : GoodNames p
  swap
  · rw [if_neg hgood, if_pos (by simp), if_pos hgood]
    rfl
  obtain ⟨init, c, rfl⟩ := (List.eq_nil_or_concat' p).resolve_left hroot
  have hplaced : Placed path init c := ⟨hc, hnorm⟩
  have hat := nodeAt_pathOf fs h.shaped.normal (init ++ [c]) hc
  rw [if_pos hgood, if_neg (by simp), if_neg (not_not.mpr hgood), abs_tree]
  cases hnode : treeOf fs.nodes (init ++ [c]) with
  | none =>
    have hq := overQuota_iff h (Nat.zero_le _) hfit
    rw [findNode_none (hat.trans hnode), hat, hnode, Option.any_none, Option.any_none, if_neg (by simp), if_neg (by simp)]
    simp only [Option.map_none, Option.getD_none]
    by_cases hover : fs.abs.OverQuota 0 data.length
    · rw [if_pos (hq.mpr hover), if_pos hover]
      rfl
    rw [if_neg (mt hq.mp hover), if_neg hover]
    rcases hrun : prepareParents noVfsFaults fs cred (pathOf (init ++ [c])) mk now with ⟨rc, fs1⟩
    by_cases hrc : rc = .ok
    · subst hrc
      obtain ⟨-, -, -, added, hg⟩ := (hplaced.parents h.shaped cred path mk now hrun).resolve_right (by simp)
      have hins := insert_abs h cred now hplaced hnode hrun
        (newNode (pathOf (init ++ [c])) .file (VFS_MODE_FILE_DEFAULT &&& ~~~fs1.umask) cred.uid data now) rfl
        (add64 fs1.usage data.length)
      rw [hg.umask, entry_newFile] at hins
      simp only [noVfsFaults, addNode, Bool.false_eq_true, and_false, if_false]
      rw [← hins, hg.umask]
      rfl
    · rw [← insert_refused h cred now hplaced hrun hrc (fs.abs.newFile cred data now)]
      cases rc <;> first | rfl | exact absurd rfl hrc
  | some n =>
    have hmem := (h.shaped.treeOf_eq_some (init ++ [c]) n).mp hnode
    obtain ⟨i, hfind, hi⟩ := findNode_some (hat.trans hnode)
    rw [hat, hnode, hfind, Option.any_some, Option.any_some]
    simp only [Option.map_some, Option.getD_some, decide_eq_true_eq, checkPerm_write]
    show absReply (if n.type = .dir then _ else _) = if n.type = .dir then _ else _
    by_cases hdir : n.type = .dir
    · rw [if_pos hdir, if_pos hdir]
      rfl
    rw [if_neg hdir, if_neg hdir]
    cases hperm : n.entry.allows cred writeBit with
    | false =>
      rw [if_pos (by simp), if_pos (by simp)]
      rfl
    | true =>
      have hfile : n.type = .file := by
        cases ht : n.type with
        | file => rfl
        | dir => exact absurd ht hdir
      have hsize : n.entry.size = n.size := if_pos hfile
      have hle : n.size ≤ fileBytes fs.nodes := by
        have := fileSize_le fs.nodes n hmem.1
        unfold fileSize at this
        rwa [if_pos hfile] at this
      have hq := overQuota_iff h hle hfit
      rw [← hsize] at hq
      simp only [Bool.not_true, Bool.false_eq_true, Bool.true_eq_false, if_false, ← hsize]
      by_cases hover : fs.abs.OverQuota n.entry.size data.length
      · rw [if_pos (hq.mpr hover), if_pos hover]
        rfl
      rw [if_neg (mt hq.mp hover), if_neg hover]
      -- the parent of a node is there
      have hdirAt := h.shaped.closed.parent init c n hnode
      rw [prepareParents_dirAt cred now h.shaped hplaced mk hdirAt]
      simp only [noVfsFaults, Bool.false_eq_true, and_false, if_false]
      obtain ⟨-, ht⟩ := h.shaped.set i n { n with data := data, mtime := now } hi rfl rfl
      refine Prod.ext rfl ?_
      show FileTree.mk (fun q => (treeOf (fs.nodes.set i _) q).map VfsNode.entry) fs.quota fs.umask = _
      rw [ht, hmem.2, map_update]
      rfl

theorem vfsMkdir_abs (path : Bytes) (mk : Bool) :
    absReply (vfsMkdir noVfsFaults fs cred path mk now) = fs.abs.mkdir cred now path mk := by
  unfold vfsMkdir FileTree.mkdir
  rcases parse_cases path with ⟨hnorm, hparse⟩ | ⟨p, hc, hnorm, hparse, hlen⟩
  · rw [hnorm, hparse]
    rfl
  rw [hnorm, hparse]
  simp only []
  by_cases hroot : p = []
  · rw [if_pos ((pathOf_eq_root p hc.names).mpr hroot), if_pos hroot]
    rfl
  rw [if_neg fun heq => hroot ((pathOf_eq_root p hc.names).mp heq), if_neg hroot, validate_goodNames p hc hroot hlen]
  by_cases hgood : GoodNames p
  swap
  · rw [if_neg hgood, if_pos (by simp), if_pos hgood]
    rfl
  obtain ⟨init, c, rfl⟩ := (List.eq_nil_or_concat' p).resolve_left hroot
  have hplaced : Placed path init c := ⟨hc, hnorm⟩
  rw [if_pos hgood, if_neg (by simp), if_neg (not_not.mpr hgood), abs_tree,
    nodeAt_pathOf fs h.shaped.normal (init ++ [c]) hc]
  cases hnode : treeOf fs.nodes (init ++ [c]) with
  | none =>
    simp only [Option.map_none]
    rcases hrun : prepareParents noVfsFaults fs cred (pathOf (init ++ [c])) mk now with ⟨rc, fs1⟩
    by_cases hrc : rc = .ok
    · subst hrc
      obtain ⟨-, -, -, added, hg⟩ := (hplaced.parents h.shaped cred path mk now hrun).resolve_right (by simp)
      have hins := insert_abs h cred now hplaced hnode hrun
        (newNode (pathOf (init ++ [c])) .dir (VFS_MODE_DIR_DEFAULT &&& ~~~fs1.umask) cred.uid [] now) rfl fs1.usage
      rw [hg.umask, entry_newDir] at hins
      simp only [noVfsFaults, addNode, Bool.false_eq_true, if_false]
      rw [← hins, hg.umask]
      rfl
    · rw [← insert_refused h cred now hplaced hrun hrc (fs.abs.newDir cred now)]
      cases rc <;> first | rfl | exact absurd rfl hrc
  | some n =>
    show absReply (if n.type = .dir ∧ mk = true then _ else _) = if n.type = .dir ∧ mk = true then _ else _
    split
    · rfl
    · rfl

/-! ## Removing -/

/-- A node removed that has nothing below it. -/
theorem removeLeaf_abs {i : Nat} {n : VfsNode} (hi : fs.nodes[i]? = some n)
    (hleaf : ∀ m ∈ fs.nodes, ¬ Below (nodeKey n) (nodeKey m)) :
    (removeNode fs i).abs = { fs.abs with tree := Function.update fs.abs.tree (nodeKey n) none } := by
  obtain ⟨-, htree⟩ := h.shaped.removeLeaf hi hleaf
  obtain ⟨-, hquota, humask, -⟩ := removeNode_spec h.counted hi
  show FileTree.mk (fun q => (treeOf (removeNode fs i).nodes q).map VfsNode.entry) _ _ = _
  rw [htree, hquota, humask]
  congr 1
  funext q
  by_cases hq : q = nodeKey n
  · subst hq
    rw [Function.update_self]
    unfold restrict
    rw [if_neg (by simp)]
    rfl
  · rw [Function.update_of_ne hq]
    unfold restrict
    rw [if_pos (by simpa using hq)]
    rfl

omit h in
/-- What is below is counted. -/
theorem countChildren_pos (h : Shaped fs.nodes) {p : List Bytes} (hc : Components p) (hne : p ≠ []) :
    countChildren fs (pathOf p) > 0 ↔ fs.abs.HasBelow p := by
  unfold countChildren
  have hroot : pathOf p ≠ [47] := fun heq => hne ((pathOf_eq_root p hc.names).mp heq)
  simp only [hroot, if_false, gt_iff_lt, List.countP_pos_iff]
  constructor
  · rintro ⟨m, hm, hb⟩
    refine ⟨nodeKey m, (below_nodeKey h p hc hne hm).mp hb, ?_⟩
    rw [abs_tree, (h.treeOf_eq_some _ m).mpr ⟨hm, rfl⟩]
    simp
  · rintro ⟨q, hb, hq⟩
    obtain ⟨e, he⟩ := Option.ne_none_iff_exists'.mp hq
    obtain ⟨m, hm, -⟩ := Option.map_eq_some_iff.mp he
    obtain ⟨hmem, rfl⟩ := (h.treeOf_eq_some q m).mp hm
    exact ⟨m, hmem, (below_nodeKey h p hc hne hmem).mpr hb⟩

theorem vfsDelete_abs (path : Bytes) : absReply (vfsDelete fs cred path) = fs.abs.delete cred path := by
  unfold vfsDelete FileTree.delete
  rcases parse_cases path with ⟨hnorm, hparse⟩ | ⟨p, hc, hnorm, hparse, hlen⟩
  · rw [hnorm, hparse]
    rfl
  rw [hnorm, hparse]
  simp only []
  by_cases hroot : p = []
  · rw [if_pos ((pathOf_eq_root p hc.names).mpr hroot), if_pos hroot]
    rfl
  have hat := nodeAt_pathOf fs h.shaped.normal p hc
  rw [if_neg fun heq => hroot ((pathOf_eq_root p hc.names).mp heq), if_neg hroot, abs_tree]
  cases hnode : treeOf fs.nodes p with
  | none =>
    rw [findNode_none (hat.trans hnode)]
    rfl
  | some n =>
    obtain ⟨hmem, rfl⟩ := (h.shaped.treeOf_eq_some p n).mp hnode
    obtain ⟨i, hfind, hi⟩ := findNode_some (hat.trans hnode)
    rw [hfind, hat, hnode]
    simp only [Option.map_some, checkPerm_write]
    cases hperm : n.entry.allows cred writeBit with
    | false =>
      simp only [if_true]
      rfl
    | true =>
      simp only [Bool.true_eq_false, if_false]
      have hcount := countChildren_pos h.shaped hc hroot
      by_cases hfull : n.type = .dir ∧ fs.abs.HasBelow (nodeKey n)
      · rw [if_pos ⟨hfull.1, hcount.mpr hfull.2⟩, if_pos (show n.entry.type = .dir ∧ _ from hfull)]
        rfl
      · have hempty : ¬ (n.type = .dir ∧ countChildren fs (pathOf (nodeKey n)) > 0) :=
          fun hf => hfull ⟨hf.1, hcount.mp hf.2⟩
        rw [if_neg hempty, if_neg (show ¬ (n.entry.type = .dir ∧ _) from hfull)]
        have hleaf := h.shaped.delete_leaf hmem (by rwa [(h.shaped.normal n hmem).key.2.2])
        exact Prod.ext rfl (removeLeaf_abs h hi hleaf)

omit h in
/-- What a filter leaves. -/
theorem treeOf_filtered {nodes nodes' : List VfsNode} (h : Distinct nodeKey nodes) (keep : List Bytes → Bool)
    (hperm : nodes'.Perm (nodes.filter fun n => keep (nodeKey n))) : treeOf nodes' = restrict keep (treeOf nodes) := by
  unfold treeOf
  rw [lookup_perm (h.filter _) hperm.symm, lookup_filter h keep]
  rfl

/-- Nothing is at or below a file but the file. -/
theorem restrict_file {p : List Bytes} {n : VfsNode} (hnode : treeOf fs.nodes p = some n) (hfile : n.type ≠ .dir) :
    restrict (fun q => decide (¬ p <+: q)) fs.abs.tree = Function.update fs.abs.tree p none := by
  have hnot : ¬ DirAt FileEntry.IsDir fs.abs.tree p := by
    rintro (rfl | ⟨d, hd, hdir⟩)
    · rw [h.shaped.closed.root] at hnode
      cases hnode
    · rw [abs_tree, hnode] at hd
      obtain rfl := Option.some.inj hd
      exact hfile hdir
  funext q
  unfold restrict
  by_cases hq : q = p
  · subst hq
    rw [Function.update_self, if_neg (by simp)]
  · rw [Function.update_of_ne hq]
    by_cases hpre : p <+: q
    · rw [if_neg (by simpa using hpre), (abs_closed h.shaped).none_below hnot ((below_iff p q).mpr ⟨hpre, Ne.symm hq⟩)]
    · rw [if_pos (by simpa using hpre)]

theorem vfsDeleteRecursive_abs (path : Bytes) :
    absReply (vfsDeleteRecursive fs cred path) = fs.abs.deleteRecursive cred path := by
  unfold vfsDeleteRecursive FileTree.deleteRecursive
  rcases parse_cases path with ⟨hnorm, hparse⟩ | ⟨p, hc, hnorm, hparse, hlen⟩
  · rw [hnorm, hparse]
    rfl
  rw [hnorm, hparse]
  simp only []
  by_cases hroot : p = []
  · rw [if_pos ((pathOf_eq_root p hc.names).mpr hroot), if_pos hroot]
    rfl
  have hat := nodeAt_pathOf fs h.shaped.normal p hc
  rw [if_neg fun heq => hroot ((pathOf_eq_root p hc.names).mp heq), if_neg hroot, abs_tree]
  cases hnode : treeOf fs.nodes p with
  | none =>
    rw [findNode_none (hat.trans hnode)]
    rfl
  | some n =>
    obtain ⟨hmem, rfl⟩ := (h.shaped.treeOf_eq_some p n).mp hnode
    obtain ⟨i, hfind, hi⟩ := findNode_some (hat.trans hnode)
    rw [hfind, hat, hnode]
    simp only [Option.map_some, checkPerm_write]
    cases hperm : n.entry.allows cred writeBit with
    | false =>
      simp only [if_true]
      rfl
    | true =>
      simp only [Bool.true_eq_false, if_false]
      by_cases hdir : n.type = .dir
      · rw [if_neg (not_not.mpr hdir)]
        obtain ⟨j, hj, -, -⟩ := h.shaped.removeTree hmem
        have hwithout := cleared_without h.shaped.normal h.storeOk.distinct hmem hj
        rw [(h.shaped.normal n hmem).key.2.2] at hj hwithout
        rw [hj]
        refine Prod.ext rfl ?_
        show FileTree.mk (fun q => (treeOf (removeNode _ j).nodes q).map VfsNode.entry) _ _ = _
        rw [treeOf_filtered h.shaped.distinct (fun q => decide (¬ nodeKey n <+: q))
          (hwithout.nodes.trans (List.Perm.of_eq (List.filter_congr fun m _ => by simp [subtree]))), hwithout.quota,
          hwithout.umask]
        congr 1
        funext q
        unfold restrict
        split
        · rfl
        · rfl
      · rw [if_pos hdir, restrict_file h hnode hdir]
        exact Prod.ext rfl (removeLeaf_abs h hi (h.shaped.file_leaf hmem hdir))

/-! ## Copying and modes -/

theorem vfsCopy_abs (srcPath dstPath : Bytes) (mk : Bool)
    (hfit : (VfsCall.copy srcPath dstPath mk).Fits fs) :
    absReply (vfsCopy noVfsFaults fs cred srcPath dstPath mk now) = fs.abs.copy cred now srcPath dstPath mk := by
  unfold VfsCall.Fits VfsCall.bytes at hfit
  unfold vfsCopy FileTree.copy
  rcases parse_cases srcPath with ⟨hnorm, hparse⟩ | ⟨p, hc, hnorm, hparse, hlen⟩
  · rw [hnorm, hparse]
    rfl
  rw [hnorm, hparse]
  simp only [hnorm, nodeAt_pathOf fs h.shaped.normal p hc] at hfit ⊢
  rw [abs_tree]
  cases hnode : treeOf fs.nodes p with
  | none => rfl
  | some n =>
    rw [hnode] at hfit
    simp only [Option.map_some, checkPerm_read]
    show absReply (if n.type = .dir then _ else _) = if n.type = .dir then _ else _
    by_cases hdir : n.type = .dir
    · rw [if_pos hdir, if_pos hdir]
      rfl
    rw [if_neg hdir, if_neg hdir]
    cases hperm : n.entry.allows cred readBit with
    | false =>
      simp only [if_true]
      rfl
    | true =>
      simp only [noVfsFaults, Bool.true_eq_false, Bool.false_eq_true, and_false, if_false]
      exact vfsWrite_abs h cred now dstPath n.data mk hfit

theorem vfsChmod_abs (path : Bytes) (mode : BitVec 32) :
    absReply (vfsChmod fs cred path mode now) = fs.abs.chmod cred now path mode := by
  unfold vfsChmod FileTree.chmod
  cases hadmin : cred.isAdmin with
  | false => rfl
  | true =>
    simp only [Bool.true_eq_false, if_false]
    rcases parse_cases path with ⟨hnorm, hparse⟩ | ⟨p, hc, hnorm, hparse, hlen⟩
    · rw [hnorm, hparse]
      rfl
    have hat := nodeAt_pathOf fs h.shaped.normal p hc
    rw [hnorm, hparse]
    simp only []
    rw [abs_tree]
    cases hnode : treeOf fs.nodes p with
    | none =>
      rw [findNode_none (hat.trans hnode)]
      rfl
    | some n =>
      obtain ⟨-, hkey⟩ := (h.shaped.treeOf_eq_some p n).mp hnode
      obtain ⟨i, hfind, hi⟩ := findNode_some (hat.trans hnode)
      obtain ⟨-, ht⟩ := h.shaped.set i n { n with mode := mode &&& 0o777#32, mtime := now } hi rfl rfl
      rw [hfind, hat, hnode]
      refine Prod.ext rfl ?_
      show FileTree.mk (fun q => (treeOf (fs.nodes.set i _) q).map VfsNode.entry) fs.quota fs.umask = _
      rw [ht, hkey, map_update]
      rfl

/-! ## Renaming -/

omit h in
/-- Moving what is left without the destination is moving it over the destination. -/
theorem move_restrict (t : Tree Bytes VfsNode) {old new : List Bytes} (hout : ¬ old <+: new) (now : Int) (q : List Bytes) :
    (move old new (touchNode now) (restrict (fun q => decide (q ≠ new)) t) q).map VfsNode.entry =
      move old new (fun _ e => { e with mtime := now }) (fun q => (t q).map VfsNode.entry) q := by
  unfold move restrict
  by_cases hin : new <+: q
  · have hne : old ++ q.drop new.length ≠ new := fun heq => hout ⟨_, heq⟩
    rw [if_pos hin, if_pos hin, if_pos (by simpa using hne), Option.map_map, Option.map_map]
    rfl
  · have hne : q ≠ new := fun heq => hin (heq ▸ List.prefix_refl _)
    rw [if_neg hin, if_neg hin]
    by_cases hold : old <+: q
    · rw [if_pos hold, if_pos hold]
      rfl
    · rw [if_neg hold, if_neg hold, if_pos (by simpa using hne)]

/-- The end of a rename whose checks have passed. -/
theorem renameGoes_abs {oldPath newPath : Bytes} {old new : List Bytes} {src : VfsNode}
    (hgo : RenameGoes fs cred oldPath newPath (pathOf old) (pathOf new) src) (hold : Components old)
    (hnew : Components new) :
    absReply (vfsRename noVfsFaults fs cred oldPath newPath now) =
      if fs.abs.checkDir new.dropLast false ≠ .ok then (fs.abs.checkDir new.dropLast false, fs.abs)
      else (.ok, { fs.abs with tree := move old new (fun _ e => { e with mtime := now }) fs.abs.tree }) := by
  obtain ⟨hsrc, init, c, hcat, ht⟩ := hgo.tree h.shaped
  obtain rfl := pathOf_inj new (init ++ [c]) hnew.names ht.new.names hcat
  obtain ⟨hmem, -⟩ := nodeAt_some ht.source
  obtain ⟨hk, hne, hp⟩ := (ht.cleared.normal src hmem).key
  obtain rfl := pathOf_inj old (nodeKey src) hold.names hk.names (hsrc.trans hp)
  obtain ⟨i, hfind, hi⟩ := findNode_some ht.source
  have hparent := checkParent_abs ht.cleared init c ht.new (Nat.le_of_lt ht.short)
  have hsame : (clearDst fs (pathOf (init ++ [c]))).abs.checkDir init false = fs.abs.checkDir init false := by
    refine checkDir_get ?_
    unfold FileTree.get
    rw [abs_tree, abs_tree, ht.keeps init (by simp)]
  rw [hgo.eq, List.dropLast_concat, ← hp, hfind, ht.source]
  simp only []
  by_cases hok : checkParent (clearDst fs (pathOf (init ++ [c]))) (pathOf (init ++ [c])) = .ok
  · have hdir := checkParent_ok ht.cleared init c ht.new (Nat.le_of_lt ht.short) hok
    have hfree : treeOf (clearDst fs (pathOf (init ++ [c]))).nodes (init ++ [c]) = none := by
      rw [ht.tree]
      exact if_neg (by simp)
    have hstep := (clearDst_filter h.shaped (init ++ [c]) ht.new).2
    obtain ⟨-, hmoved⟩ := ht.cleared.rename (nodeKey src) init c hk ht.new hne ht.out hfree now hdir
    rw [if_neg (not_not.mpr hok), if_neg (by rw [← hsame, ← hparent, hok]; simp), renameNode_shaped ht.cleared hi]
    refine Prod.ext rfl ?_
    show FileTree.mk (fun q => (treeOf (List.map _ (clearDst fs _).nodes) q).map VfsNode.entry) _ _ = _
    rw [hp, hmoved, ht.tree, hstep.quota, hstep.umask]
    congr 1
    funext q
    exact move_restrict (treeOf fs.nodes) ht.out now q
  · rw [if_pos hok, if_pos (by rw [← hsame, ← hparent]; exact hok), ht.orphan h.shaped hok]
    rw [ht.orphan h.shaped hok] at hparent
    exact Prod.ext hparent rfl

theorem vfsRename_abs (oldPath newPath : Bytes) :
    absReply (vfsRename noVfsFaults fs cred oldPath newPath now) = fs.abs.rename cred now oldPath newPath := by
  unfold FileTree.rename
  rcases parse_cases oldPath with ⟨hnorm, hparse⟩ | ⟨old, hold, hnorm, hparse, hlen⟩
  · unfold vfsRename
    rw [hnorm, hparse]
    rfl
  rcases parse_cases newPath with ⟨hnorm', hparse'⟩ | ⟨new, hnew, hnorm', hparse', hlen'⟩
  · unfold vfsRename
    rw [hnorm, hparse, hnorm', hparse']
    rfl
  have hroots := pathOf_eq_root old hold.names
  have hroots' := pathOf_eq_root new hnew.names
  rw [hparse, hparse']
  simp only []
  by_cases hroot : old = [] ∨ new = []
  · unfold vfsRename
    simp only [hnorm, hnorm', hroots, hroots']
    rw [if_pos hroot, if_pos hroot]
    rfl
  rw [if_neg hroot]
  rw [not_or] at hroot
  have hvalid := validate_goodNames new hnew hroot.2 hlen'
  by_cases hgood : GoodNames new
  swap
  · unfold vfsRename
    simp only [hnorm, hnorm', hroots, hroots']
    rw [if_neg (not_or.mpr hroot), hvalid, if_neg hgood, if_pos (by simp), if_pos hgood]
    rfl
  rw [if_pos hgood] at hvalid
  rw [if_neg (not_not.mpr hgood)]
  by_cases hdiff : old = new
  · unfold vfsRename
    simp only [hnorm, hnorm', hroots, hroots', hvalid]
    rw [if_neg (not_or.mpr hroot), if_neg (by simp), if_pos (congrArg pathOf hdiff), if_pos hdiff]
    rfl
  have hdiff' : pathOf old ≠ pathOf new := fun heq => hdiff (pathOf_inj old new hold.names hnew.names heq)
  have hbelow : pathBelow (pathOf old) (pathOf new) = true ↔ old <+: new := by
    rw [pathBelow_pathOf old new hold.names hnew.names hroot.1, ← Below, below_iff]
    exact and_iff_left hdiff
  rw [if_neg hdiff]
  by_cases hpre : old <+: new
  · unfold vfsRename
    simp only [hnorm, hnorm', hroots, hroots', hvalid]
    rw [if_neg (not_or.mpr hroot), if_neg (by simp), if_neg hdiff', if_pos (hbelow.mpr hpre), if_pos hpre]
    rfl
  have hat := nodeAt_pathOf fs h.shaped.normal old hold
  have hat' := nodeAt_pathOf fs h.shaped.normal new hnew
  rw [if_neg hpre, abs_tree]
  cases hnode : treeOf fs.nodes old with
  | none =>
    unfold vfsRename
    simp only [hnorm, hnorm', hroots, hroots', hvalid, hat, hnode]
    rw [if_neg (not_or.mpr hroot), if_neg (by simp), if_neg hdiff', if_neg (mt hbelow.mp hpre)]
    rfl
  | some src =>
    simp only [Option.map_some]
    cases hperm : src.entry.allows cred writeBit with
    | false =>
      unfold vfsRename
      simp only [hnorm, hnorm', hroots, hroots', hvalid, hat, hnode, checkPerm_write, hperm]
      rw [if_neg (not_or.mpr hroot), if_neg (by simp), if_neg hdiff', if_neg (mt hbelow.mp hpre), if_pos trivial, if_pos trivial]
      rfl
    | true =>
      rw [if_neg (by simp)]
      have hcount := countChildren_pos h.shaped hnew hroot.2
      have hfull : ((nodeAt fs (pathOf new)).any fun dst => dst.type = .dir ∧ countChildren fs (pathOf new) > 0) = true ↔
          (∃ d, fs.abs.tree new = some d ∧ d.type = .dir) ∧ fs.abs.HasBelow new := by
        rw [hat', abs_tree]
        cases treeOf fs.nodes new with
        | none => simp
        | some dst =>
          rw [Option.any_some, decide_eq_true_iff, hcount]
          simp only [Option.map_some, Option.some.injEq, exists_eq_left']
          rfl
      by_cases hdst : (∃ d, fs.abs.tree new = some d ∧ d.type = .dir) ∧ fs.abs.HasBelow new
      · have hdst' := hfull.mpr hdst
        unfold vfsRename
        simp only [hnorm, hnorm', hroots, hroots', hvalid, hat, hnode, checkPerm_write, hperm]
        rw [if_neg (not_or.mpr hroot), if_neg (by simp), if_neg hdiff', if_neg (mt hbelow.mp hpre), if_neg (by simp),
          if_pos hdst', if_pos hdst]
        rfl
      · rw [if_neg hdst]
        refine renameGoes_abs h cred now ⟨hnorm, hnorm', mt hroots.mp hroot.1, mt hroots'.mp hroot.2, hvalid, hdiff',
          Bool.eq_false_of_not_eq_true (mt hbelow.mp hpre), hat.trans hnode, (checkPerm_write src cred).trans hperm,
          fun dst hdstAt hfilled => hdst (hfull.mp ?_)⟩ hold hnew
        rw [hdstAt]
        simpa using hfilled

/-! ## Looks -/

omit h in
/-- What `vfs_stat` says of an entry. -/
def FileEntry.stat (p : List Bytes) (e : FileEntry) : VfsStat :=
  ⟨pathOf p, e.type, e.mode, e.owner, e.data.length, e.ctime, e.mtime⟩

omit h in
theorem rootEntry_allows (cred : VfsCred) (bit : Nat) (hbit : bit < 3) : rootEntry.allows cred bit = true := by
  unfold FileEntry.allows
  rw [Bool.or_eq_true]
  right
  show (0o777#32).getLsbD bit = true
  rcases bit with _ | _ | _ | bit
  · rfl
  · rfl
  · rfl
  · omega

theorem vfsStat_abs (path : Bytes) :
    vfsStat fs cred path = (fs.abs.stat cred path).map fun r => r.2.stat r.1 := by
  unfold vfsStat FileTree.stat FileTree.get
  rcases parse_cases path with ⟨hnorm, hparse⟩ | ⟨p, hc, hnorm, hparse, hlen⟩
  · rw [hnorm, hparse]
    rfl
  rw [hnorm, hparse]
  simp only []
  by_cases hroot : p = []
  · subst hroot
    rw [if_pos (show pathOf [] = [47] from rfl), if_pos rfl]
    simp only [rootEntry_allows cred readBit (by decide), Bool.true_eq_false, if_false]
    rfl
  rw [if_neg fun heq => hroot ((pathOf_eq_root p hc.names).mp heq), if_neg hroot, nodeAt_pathOf fs h.shaped.normal p hc,
    abs_tree]
  cases hnode : treeOf fs.nodes p with
  | none => rfl
  | some n =>
    obtain ⟨hmem, rfl⟩ := (h.shaped.treeOf_eq_some p n).mp hnode
    simp only [Option.map_some, checkPerm_read]
    split
    · rfl
    · show _ = Except.ok (VfsStat.mk (pathOf (nodeKey n)) _ _ _ _ _ _)
      rw [← (h.shaped.normal n hmem).key.2.2]
      rfl

theorem vfsRead_abs (path : Bytes) : vfsRead fs cred path = fs.abs.read cred path := by
  unfold vfsRead FileTree.read
  rcases parse_cases path with ⟨hnorm, hparse⟩ | ⟨p, hc, hnorm, hparse, hlen⟩
  · rw [hnorm, hparse]
  rw [hnorm, hparse]
  simp only []
  rw [nodeAt_pathOf fs h.shaped.normal p hc, abs_tree]
  cases hnode : treeOf fs.nodes p with
  | none => rfl
  | some n =>
    simp only [Option.map_some, checkPerm_read]
    rfl

end

/-- A listing has each child once. -/
structure Lists (dir : List Bytes) (children : Set (Bytes × FileEntry)) (nodes : List VfsNode) : Prop where
  once : (nodes.map VfsNode.path).Nodup
  exact : ∀ path e, (∃ n ∈ nodes, n.path = path ∧ n.entry = e) ↔ ∃ c, path = pathOf (dir ++ [c]) ∧ (c, e) ∈ children

/-- An error is the same error, and what is returned is as the tree says. -/
def Answers {α β : Type} (R : β → α → Prop) : Except VfsStatus α → Except VfsStatus β → Prop
  | .error rc, .error rc' => rc = rc'
  | .ok a, .ok b => R b a
  | _, _ => False

theorem vfsList_abs {fs : Vfs} (h : VfsInv fs) (cred : VfsCred) (path : Bytes) :
    Answers (fun r nodes => Lists r.1 r.2 nodes) (vfsList fs cred path) (fs.abs.list cred path) := by
  have hlists : ∀ p, Components p → Lists p { child | fs.abs.tree (p ++ [child.1]) = some child.2 } (listing fs (pathOf p)) := by
    intro p hc
    constructor
    case once => exact h.storeOk.distinct.sublist ((List.filter_sublist).map _)
    case exact =>
      intro path e
      constructor
      · rintro ⟨n, hn, rfl, rfl⟩
        obtain ⟨hmem, c, hk⟩ := (mem_listing h.shaped p hc n).mp hn
        refine ⟨c, by rw [← hk]; exact (h.shaped.normal n hmem).key.2.2, ?_⟩
        show (treeOf fs.nodes (p ++ [c])).map VfsNode.entry = _
        rw [(h.shaped.treeOf_eq_some _ n).mpr ⟨hmem, hk⟩]
        rfl
      · rintro ⟨c, rfl, hc'⟩
        obtain ⟨n, hn, rfl⟩ := Option.map_eq_some_iff.mp hc'
        obtain ⟨hmem, hk⟩ := (h.shaped.treeOf_eq_some _ n).mp hn
        exact ⟨n, (mem_listing h.shaped p hc n).mpr ⟨hmem, c, hk⟩, by rw [← hk]; exact (h.shaped.normal n hmem).key.2.2, rfl⟩
  unfold vfsList FileTree.list FileTree.get
  rcases parse_cases path with ⟨hnorm, hparse⟩ | ⟨p, hc, hnorm, hparse, hlen⟩
  · rw [hnorm, hparse]
    rfl
  rw [hnorm, hparse]
  simp only []
  by_cases hroot : p = []
  · subst hroot
    rw [if_pos (show pathOf [] = [47] from rfl), if_pos rfl]
    simp only [rootEntry_allows cred readBit (by decide), Bool.true_eq_false, if_false]
    exact hlists [] hc
  rw [if_neg fun heq => hroot ((pathOf_eq_root p hc.names).mp heq), if_neg hroot, nodeAt_pathOf fs h.shaped.normal p hc,
    abs_tree]
  cases hnode : treeOf fs.nodes p with
  | none => rfl
  | some n =>
    simp only [Option.map_some, checkPerm_read]
    show Answers _ (if n.type ≠ .dir then _ else _) (if n.type ≠ .dir then _ else _)
    by_cases hdir : n.type ≠ .dir
    · rw [if_pos hdir, if_pos hdir]
      rfl
    rw [if_neg hdir, if_neg hdir]
    split
    · rfl
    · exact hlists p hc

/-! ## Runs -/

/-- What can be asked of a filesystem. -/
inductive VfsOp
  | call (c : VfsCall)
  | chmod (path : Bytes) (mode : BitVec 32)
  | stat (path : Bytes)
  | read (path : Bytes)
  | list (path : Bytes)
  | usage
  | quota

/-- What `vfs.h` returns. -/
inductive VfsAnswer
  | status (rc : VfsStatus)
  | stat (r : Except VfsStatus VfsStat)
  | data (r : Except VfsStatus Bytes)
  | children (r : Except VfsStatus (List VfsNode))
  | size (n : Nat)

/-- What a tree answers. -/
inductive TreeAnswer
  | status (rc : VfsStatus)
  | stat (r : Except VfsStatus (List Bytes × FileEntry))
  | data (r : Except VfsStatus Bytes)
  | children (r : Except VfsStatus (List Bytes × Set (Bytes × FileEntry)))
  | size (n : Nat)

/-- The answer is the tree's. -/
def VfsAnswer.Meets : VfsAnswer → TreeAnswer → Prop
  | .status rc, .status rc' => rc = rc'
  | .stat r, .stat r' => r = r'.map fun e => e.2.stat e.1
  | .data r, .data r' => r = r'
  | .children r, .children r' => Answers (fun e nodes => Lists e.1 e.2 nodes) r r'
  | .size n, .size n' => n = n'
  | _, _ => False

/-- Who asks for what, and when. -/
structure VfsRequest where
  cred : VfsCred
  now : Int
  op : VfsOp

def VfsRequest.run (fs : Vfs) (r : VfsRequest) : VfsAnswer × Vfs :=
  match r.op with
  | .call c => (.status (c.run noVfsFaults r.cred r.now fs).1, (c.run noVfsFaults r.cred r.now fs).2)
  | .chmod path mode => (.status (vfsChmod fs r.cred path mode r.now).1, (vfsChmod fs r.cred path mode r.now).2)
  | .stat path => (.stat (vfsStat fs r.cred path), fs)
  | .read path => (.data (vfsRead fs r.cred path), fs)
  | .list path => (.children (vfsList fs r.cred path), fs)
  | .usage => (.size fs.usage, fs)
  | .quota => (.size fs.quota, fs)

namespace FileTree

noncomputable def call (s : FileTree) (cred : VfsCred) (now : Int) : VfsCall → VfsStatus × FileTree
  | .write path data createParents => s.write cred now path data createParents
  | .mkdir path createParents => s.mkdir cred now path createParents
  | .delete path => s.delete cred path
  | .deleteRecursive path => s.deleteRecursive cred path
  | .rename oldPath newPath => s.rename cred now oldPath newPath
  | .copy srcPath dstPath createParents => s.copy cred now srcPath dstPath createParents

noncomputable def run (s : FileTree) (r : VfsRequest) : TreeAnswer × FileTree :=
  match r.op with
  | .call c => (.status (s.call r.cred r.now c).1, (s.call r.cred r.now c).2)
  | .chmod path mode => (.status (s.chmod r.cred r.now path mode).1, (s.chmod r.cred r.now path mode).2)
  | .stat path => (.stat (s.stat r.cred path), s)
  | .read path => (.data (s.read r.cred path), s)
  | .list path => (.children (s.list r.cred path), s)
  | .usage => (.size s.used, s)
  | .quota => (.size s.quota, s)

/-- One request after the other. -/
noncomputable def serve (s : FileTree) : List VfsRequest → List TreeAnswer × FileTree
  | [] => ([], s)
  | r :: rs => ((s.run r).1 :: ((s.run r).2.serve rs).1, ((s.run r).2.serve rs).2)

end FileTree

def vfsServe (fs : Vfs) : List VfsRequest → List VfsAnswer × Vfs
  | [] => ([], fs)
  | r :: rs => ((r.run fs).1 :: (vfsServe (r.run fs).2 rs).1, (vfsServe (r.run fs).2 rs).2)

/-- What a request stores and what is stored are less than 2^63 together. -/
def VfsRequest.Fits (fs : Vfs) (r : VfsRequest) : Prop :=
  match r.op with
  | .call c => c.Fits fs
  | _ => True

instance decidableRequestFits (fs : Vfs) (r : VfsRequest) : Decidable (r.Fits fs) := by
  unfold VfsRequest.Fits
  split <;> infer_instance

/-- All along. -/
def FitAll (fs : Vfs) : List VfsRequest → Prop
  | [] => True
  | r :: rs => r.Fits fs ∧ FitAll (r.run fs).2 rs

theorem vfsCall_abs {fs : Vfs} (h : VfsInv fs) (cred : VfsCred) (now : Int) (c : VfsCall) (hfit : c.Fits fs) :
    absReply (c.run noVfsFaults cred now fs) = fs.abs.call cred now c := by
  cases c with
  | write path data createParents => exact vfsWrite_abs h cred now path data createParents hfit
  | mkdir path createParents => exact vfsMkdir_abs h cred now path createParents
  | delete path => exact vfsDelete_abs h cred path
  | deleteRecursive path => exact vfsDeleteRecursive_abs h cred path
  | rename oldPath newPath => exact vfsRename_abs h cred now oldPath newPath
  | copy srcPath dstPath createParents => exact vfsCopy_abs h cred now srcPath dstPath createParents hfit

/-- A mode is no size and no place. -/
theorem vfsChmod_inv {fs : Vfs} (h : VfsInv fs) (cred : VfsCred) (path : Bytes) (mode : BitVec 32) (now : Int) :
    VfsInv (vfsChmod fs cred path mode now).2 := by
  unfold vfsChmod
  split
  · exact h
  · split
    · exact h
    · next norm hnorm =>
      split
      · next i n hfind hnode =>
        obtain ⟨j, hj, hi⟩ := findNode_some hnode
        obtain rfl := Option.some.inj (hfind.symm.trans hj)
        obtain ⟨hs, -⟩ := h.shaped.set i n { n with mode := mode &&& 0o777#32, mtime := now } hi rfl rfl
        have hbytes := fileBytes_set fs.nodes i n { n with mode := mode &&& 0o777#32, mtime := now } hi
        have hsize : fileSize { n with mode := mode &&& 0o777#32, mtime := now } = fileSize n := rfl
        exact h.recounted hs (by rw [hsize] at hbytes; exact Nat.add_right_cancel hbytes) rfl rfl
      · exact h

/-- **One request** keeps the invariant, and the tree answers the same. -/
theorem vfsRequest_abs {fs : Vfs} (h : VfsInv fs) (r : VfsRequest) (hfit : r.Fits fs) :
    VfsInv (r.run fs).2 ∧ (r.run fs).1.Meets (fs.abs.run r).1 ∧ (r.run fs).2.abs = (fs.abs.run r).2 := by
  obtain ⟨cred, now, op⟩ := r
  cases op with
  | call c =>
    have heq := vfsCall_abs h cred now c hfit
    refine ⟨?_, congrArg Prod.fst heq, congrArg Prod.snd heq⟩
    rcases c.outcome h cred now hfit with ⟨-, hinv⟩ | ⟨-, hsame⟩
    · exact hinv
    · show VfsInv (c.run noVfsFaults cred now fs).2
      rwa [hsame]
  | chmod path mode =>
    have heq := vfsChmod_abs h cred now path mode
    exact ⟨vfsChmod_inv h cred path mode now, congrArg Prod.fst heq, congrArg Prod.snd heq⟩
  | stat path => exact ⟨h, vfsStat_abs h cred path, rfl⟩
  | read path => exact ⟨h, vfsRead_abs h cred path, rfl⟩
  | list path => exact ⟨h, vfsList_abs h cred path, rfl⟩
  | usage => exact ⟨h, used_eq h, rfl⟩
  | quota => exact ⟨h, rfl, rfl⟩

theorem abs_new (quota : Nat) (umask : BitVec 32) : (vfsNew quota umask).abs = FileTree.new quota umask := rfl

theorem vfsServe_abs {fs : Vfs} (h : VfsInv fs) (reqs : List VfsRequest) (hfit : FitAll fs reqs) :
    List.Forall₂ VfsAnswer.Meets (vfsServe fs reqs).1 (fs.abs.serve reqs).1 ∧
      (vfsServe fs reqs).2.abs = (fs.abs.serve reqs).2 := by
  induction reqs generalizing fs with
  | nil => exact ⟨.nil, rfl⟩
  | cons r reqs ih =>
    obtain ⟨hinv, hmeets, habs⟩ := vfsRequest_abs h r hfit.1
    obtain ⟨hrest, hlast⟩ := ih hinv hfit.2
    unfold vfsServe FileTree.serve
    rw [← habs]
    exact ⟨.cons hmeets hrest, hlast⟩

/-- **The filesystem is the tree.**  Whatever is asked of a new filesystem, by whomever and in whatever order, and as
long as memory and 2^63 octets last: every answer, the codes of the errors included, is that of the tree, and what the
array of nodes stands for in the end is the tree's state. -/
theorem vfs_refines_tree (quota : Nat) (umask : BitVec 32) (reqs : List VfsRequest)
    (hfit : FitAll (vfsNew quota umask) reqs) :
    List.Forall₂ VfsAnswer.Meets (vfsServe (vfsNew quota umask) reqs).1 ((FileTree.new quota umask).serve reqs).1 ∧
      (vfsServe (vfsNew quota umask) reqs).2.abs = ((FileTree.new quota umask).serve reqs).2 :=
  vfsServe_abs (vfsInv_new quota umask) reqs hfit

/-- A file is written and moved, and what is asked for then is not there. -/
def movedRequests : List VfsRequest :=
  [⟨adminCred, 0, .call (.write (lit ['/', 'a', '/', 'b']).bytes [1, 2] true)⟩,
    ⟨⟨7#32, false, false⟩, 1, .call (.rename (lit ['/', 'a']).bytes (lit ['/', 'c']).bytes)⟩,
    ⟨adminCred, 2, .call (.rename (lit ['/', 'a']).bytes (lit ['/', 'c']).bytes)⟩,
    ⟨adminCred, 3, .read (lit ['/', 'a', '/', 'b']).bytes⟩]

theorem vfs_refines_tree_moved : movedRequests.length = 4 ∧
    List.Forall₂ VfsAnswer.Meets (vfsServe (vfsNew 10 0#32) movedRequests).1 ((FileTree.new 10 0#32).serve movedRequests).1 ∧
      (vfsServe (vfsNew 10 0#32) movedRequests).2.abs = ((FileTree.new 10 0#32).serve movedRequests).2 :=
  ⟨rfl, vfs_refines_tree 10 0#32 movedRequests ⟨by decide, by decide, by decide, trivial, trivial⟩⟩

end Smolvfs
