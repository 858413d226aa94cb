import Smolvfs.VfsRestore
import Smolvfs.VfsRuns

/-!
# Paths that pass the check

`validate_path_components` on a path in normal form looks at its length and at each of
its octets (`validate_iff`).  The calls check the paths they are given, so in every run
every octet of a stored path is one the check takes, and a path that fits the buffer
passes it (`VfsRun.valid`).
-/

namespace Smolvfs

open Octets Keyed Names PathTree

/-! ## The octets -/

/-- A slash, or an octet the check takes in a component. -/
def TakenOctet (c : UInt8) : Prop := c = 47 ∨ (0x20 ≤ c.toNat ∧ c ∉ ILLEGAL_CHARS)

/-- A component of octets the check takes. -/
theorem validateFrom_component (comp : Nat) (dots : Bool) (c rest : Bytes) (hslash : (47 : UInt8) ∉ c)
    (htaken : ∀ x ∈ c, TakenOctet x) :
    validateFrom comp dots (c ++ rest) = validateFrom (comp + c.length) (dots && c.all (· == 46)) rest := by
  induction c generalizing comp dots with
  | nil => simp
  | cons x c ih =>
    have hx : x ≠ 47 := fun heq => hslash (by simp [heq])
    have hok : ¬ (x.toNat < 0x20 ∨ x ∈ ILLEGAL_CHARS) := by
      rcases htaken x (by simp) with heq | ⟨hge, hlegal⟩
      · exact absurd heq hx
      · rintro (hlt | hmem)
        · omega
        · exact hlegal hmem
    rw [List.cons_append, validateFrom, if_pos hx, if_neg hok,
      ih _ _ (fun hmem => hslash (by simp [hmem])) (fun y hy => htaken y (by simp [hy])),
      List.length_cons, List.all_cons, Bool.and_assoc, Nat.add_assoc, Nat.add_comm 1]

/-- A component of a normal path is not one or two dots. -/
theorem dots_long {c : Bytes} (h : Component c) : ¬ (c.all (· == 46) = true ∧ c.length ≤ 2) := by
  rintro ⟨hall, hlen⟩
  obtain ⟨⟨hne, -⟩, hone, htwo⟩ := h
  have heq : c = List.replicate c.length 46 := by
    rw [List.eq_replicate_iff]
    refine ⟨rfl, fun x hx => ?_⟩
    simpa using List.all_eq_true.mp hall x hx
  have hpos : 0 < c.length := List.length_pos_of_ne_nil hne
  have hcases : c.length = 1 ∨ c.length = 2 := by omega
  rcases hcases with hl | hl
  · rw [hl] at heq
    exact hone heq
  · rw [hl] at heq
    exact htwo heq

theorem validateFrom_join (c : Bytes) (comps : List Bytes) (hc : Components (c :: comps))
    (htaken : ∀ x ∈ c ++ join 47 comps, TakenOctet x) : validateFrom 0 true (c ++ join 47 comps) = true := by
  induction comps generalizing c with
  | nil =>
    have hself : Component c := hc.all c (by simp)
    have hlong := dots_long hself
    rw [validateFrom_component 0 true c _ hself.1.2 (fun x hx => htaken x (by simp [hx]))]
    show validateFrom _ _ [] = true
    unfold validateFrom
    rw [Nat.zero_add, Bool.true_and, Bool.or_eq_true, Bool.not_eq_true', Bool.and_eq_false_iff, decide_eq_false_iff_not]
    by_cases hd : c.all (· == 46) = true
    · exact Or.inr (Or.inr fun hle => hlong ⟨hd, hle⟩)
    · exact Or.inr (Or.inl (by simpa using hd))
  | cons n comps ih =>
    have hself : Component c := hc.all c (by simp)
    have hlong := dots_long hself
    have hpos : c.length ≠ 0 := fun h0 => hself.1.1 (List.eq_nil_of_length_eq_zero h0)
    rw [join_cons] at htaken ⊢
    rw [validateFrom_component 0 true c _ hself.1.2 (fun x hx => htaken x (by simp [hx]))]
    unfold validateFrom
    rw [if_neg (by simp), Nat.zero_add, Bool.true_and, if_neg hpos, if_neg hlong]
    exact ih n ⟨fun x hx => hc.all x (by simp [hx])⟩ fun x hx =>
      htaken x (List.mem_append_right _ (List.mem_cons_of_mem _ hx))

theorem validateFrom_taken (comp : Nat) (dots : Bool) (rest : Bytes) (h : validateFrom comp dots rest = true) :
    ∀ x ∈ rest, TakenOctet x := by
  induction rest generalizing comp dots with
  | nil => simp
  | cons c rest ih =>
    unfold validateFrom at h
    split at h
    · split at h
      · cases h
      · next hok =>
        rw [not_or] at hok
        intro x hx
        rcases List.mem_cons.mp hx with rfl | hx
        · exact Or.inr ⟨by omega, hok.2⟩
        · exact ih _ _ h x hx
    · next hc =>
      split at h
      · cases h
      · split at h
        · cases h
        · intro x hx
          rcases List.mem_cons.mp hx with rfl | hx
          · exact Or.inl (not_not.mp hc)
          · exact ih _ _ h x hx

/-- **Of a path in normal form** only the length and the octets are checked. -/
theorem validate_iff {p : Bytes} (h : NormalPath p) :
    validatePathComponents p = .ok ↔ p.length < VFS_PATH_MAX ∧ ∀ x ∈ p, TakenOctet x := by
  obtain ⟨comps, hc, hne, rfl⟩ := h
  obtain ⟨c, names, rfl⟩ := List.exists_cons_of_ne_nil hne
  have hpath : pathOf (c :: names) = 47 :: (c ++ join 47 names) := by rw [pathOf_ne_nil _ (by simp), join_cons]
  have hroot : pathOf (c :: names) ≠ [47] := fun heq => by simpa using (pathOf_eq_root _ hc.names).mp heq
  unfold validatePathComponents
  rw [if_neg hroot]
  constructor
  · intro hok
    split at hok
    · cases hok
    · next hlen =>
      split at hok
      · next hv =>
        refine ⟨by omega, fun x hx => ?_⟩
        rw [hpath] at hv hx
        rcases List.mem_cons.mp hx with rfl | hx
        · exact Or.inl rfl
        · exact validateFrom_taken 0 true _ hv x hx
      · cases hok
  · rintro ⟨hlen, htaken⟩
    rw [if_neg (by omega), if_pos]
    rw [hpath] at htaken ⊢
    exact validateFrom_join c names hc fun x hx => htaken x (List.mem_cons_of_mem _ hx)

/-! ## What the calls store -/

/-- Every octet of a stored path is one the check takes. -/
def PathsTaken (fs : Vfs) : Prop := ∀ n ∈ fs.nodes, ∀ x ∈ n.path, TakenOctet x

theorem PathsTaken.subset {fs fs' : Vfs} (h : PathsTaken fs) (hs : fs'.nodes ⊆ fs.nodes) : PathsTaken fs' :=
  fun n hn => h n (hs hn)

theorem pathOf_subset {p q : List Bytes} (hne : p ≠ []) (h : p <+: q) : pathOf p ⊆ pathOf q := by
  obtain ⟨rest, rfl⟩ := h
  rw [pathOf_ne_nil p hne, pathOf_ne_nil (p ++ rest) (by simp [hne]), join_append]
  exact List.subset_append_left _ _

/-- A call for a path that passes the check. -/
theorem CallAt.taken {fs : Vfs} {r : VfsStatus × Vfs} {path : Bytes} (h : CallAt fs r path) (ht : PathsTaken fs)
    (hnorm : ∀ norm, vfsNormalize VFS_PATH_MAX path = .ok norm → norm ≠ [47] → validatePathComponents norm ≠ .ok →
      r.2 = fs) :
    PathsTaken r.2 := by
  rcases h with ⟨heq, -⟩ | ⟨comps, c, hn, hat⟩
  · rw [heq]
    exact ht
  · have hpath : NormalPath (pathOf (comps ++ [c])) := ⟨_, hat.normal, by simp, rfl⟩
    have hroot : pathOf (comps ++ [c]) ≠ [47] := fun heq => by simpa using (pathOf_eq_root _ hat.normal.names).mp heq
    by_cases hv : validatePathComponents (pathOf (comps ++ [c])) = .ok
    · have hself := ((validate_iff hpath).mp hv).2
      exact hat.each (P := fun p => ∀ x ∈ p, TakenOctet x)
        (fun p hne hpre x hx => hself x (pathOf_subset hne hpre hx)) ht
    · rw [hnorm _ hn hroot hv]
      exact ht

section
variable {fs : Vfs} (ht : PathsTaken fs) (flt : VfsFaults) (cred : VfsCred) (now : Int)

include ht

theorem vfsWrite_taken (path data : Bytes) (createParents : Bool) :
    PathsTaken (vfsWrite flt fs cred path data createParents now).2 := by
  apply (vfsWrite_callAt flt fs cred path data createParents now).taken ht
  intro norm hnorm hroot hv
  unfold vfsWrite
  rw [hnorm]
  dsimp only
  rw [if_neg hroot, if_pos hv]

theorem vfsMkdir_taken (path : Bytes) (createParents : Bool) :
    PathsTaken (vfsMkdir flt fs cred path createParents now).2 := by
  apply (vfsMkdir_callAt flt fs cred path createParents now).taken ht
  intro norm hnorm hroot hv
  unfold vfsMkdir
  rw [hnorm]
  dsimp only
  rw [if_neg hroot, if_pos hv]

theorem vfsCopy_taken (srcPath dstPath : Bytes) (createParents : Bool) :
    PathsTaken (vfsCopy flt fs cred srcPath dstPath createParents now).2 := by
  rcases vfsCopy_step flt fs cred createParents now srcPath dstPath with ⟨rc, -, heq⟩ | ⟨src, -, heq⟩
  · rw [heq]
    exact ht
  · rw [heq]
    exact vfsWrite_taken ht flt cred now dstPath src.data createParents

omit ht in
theorem removeNode_subset (fs : Vfs) (i : Nat) : (removeNode fs i).nodes ⊆ fs.nodes := by
  cases hi : fs.nodes[i]? with
  | none =>
    unfold removeNode
    rw [hi]
    exact List.Subset.refl _
  | some n => exact fun m hm => (removeNode_perm hi).mem_iff.mpr (List.mem_cons_of_mem _ hm)

omit ht in
theorem deleteBelow_subset (norm : Bytes) (i : Nat) (fs : Vfs) : (deleteBelow norm i fs).nodes ⊆ fs.nodes := by
  induction i generalizing fs with
  | zero => exact List.Subset.refl _
  | succ i ih =>
    unfold deleteBelow
    split
    · exact List.Subset.trans (ih _) (removeNode_subset fs i)
    · exact ih fs

theorem vfsDelete_taken (path : Bytes) : PathsTaken (vfsDelete fs cred path).2 := by
  have hstep := vfsDelete_step fs cred path
  generalize vfsDelete fs cred path = r at hstep ⊢
  cases hstep with
  | refused => exact ht
  | removed => exact ht.subset (removeNode_subset fs _)

theorem vfsDeleteRecursive_taken (path : Bytes) : PathsTaken (vfsDeleteRecursive fs cred path).2 := by
  have hstep := vfsDeleteRecursive_step fs cred path
  generalize vfsDeleteRecursive fs cred path = r at hstep ⊢
  cases hstep with
  | refused => exact ht
  | removed => exact ht.subset (removeNode_subset fs _)
  | gone => exact ht.subset (deleteBelow_subset _ _ fs)
  | cleared => exact ht.subset (List.Subset.trans (removeNode_subset _ _) (deleteBelow_subset _ _ fs))

/-- A path that is moved begins with one that passes the check. -/
theorem vfsRename_taken (oldPath newPath : Bytes) : PathsTaken (vfsRename flt fs cred oldPath newPath now).2 := by
  have hstep := vfsRename_step flt fs cred oldPath newPath now
  generalize vfsRename flt fs cred oldPath newPath now = r at hstep ⊢
  cases hstep with
  | refused => exact ht
  | same => exact ht
  | lost hgo => exact ht.subset (clearDst_subset fs _)
  | orphan hgo => exact ht.subset (clearDst_subset fs _)
  | @moved onorm nnorm src src' i hgo hfind hi hparent =>
    have hself : ∀ x ∈ nnorm, TakenOctet x :=
      ((validate_iff (normalPath_of_normalize hgo.new hgo.newRoot)).mp hgo.valid).2
    have hnodes := renameNode_nodes flt (clearDst fs nnorm) i src' onorm nnorm now hi
    intro m hm x hx
    obtain ⟨n, hn, hsame⟩ := forall₂_mem_right hnodes m hm
    have hold := ht n (clearDst_subset fs _ hn)
    rcases hsame.path with heq | ⟨-, heq⟩ | ⟨-, -, heq⟩
    · exact hold x (heq ▸ hx)
    · exact hself x (heq ▸ hx)
    · rw [heq] at hx
      rcases List.mem_append.mp hx with hx | hx
      · exact hself x hx
      · exact hold x (List.mem_of_mem_drop hx)

end

/-! ## Runs -/

theorem VfsRun.taken {quota : Nat} {umask : BitVec 32} {fs : Vfs} (h : VfsRun quota umask fs) : PathsTaken fs := by
  induction h with
  | new => exact fun n hn => nomatch hn
  | call _ cred now c _ ih =>
    cases c with
    | write path data createParents => exact vfsWrite_taken ih noVfsFaults cred now path data createParents
    | mkdir path createParents => exact vfsMkdir_taken ih noVfsFaults cred now path createParents
    | delete path => exact vfsDelete_taken ih cred path
    | deleteRecursive path => exact vfsDeleteRecursive_taken ih cred path
    | rename oldPath newPath => exact vfsRename_taken ih noVfsFaults cred now oldPath newPath
    | copy srcPath dstPath createParents => exact vfsCopy_taken ih noVfsFaults cred now srcPath dstPath createParents

/-- **In every run a stored path passes the check** unless a rename has made it longer than the buffer. -/
theorem VfsRun.valid {quota : Nat} {umask : BitVec 32} {fs : Vfs} (h : VfsRun quota umask fs) {n : VfsNode}
    (hn : n ∈ fs.nodes) : validatePathComponents n.path = .ok ↔ n.path.length < VFS_PATH_MAX := by
  rw [validate_iff (h.inv.shaped.normal n hn)]
  exact and_iff_left (h.taken n hn)

end Smolvfs
