import Smolvfs.Lib.Blit
import Smolvfs.VfsNormalize

/-!
# Resolving in a scratch buffer

`vfs_resolve` with its buffer of `VFS_PATH_MAX` octets.  Its length check counts the
working directory it is given; a directory that does not start with a slash is then
replaced by `/`, which need not have that length.

`resolve_meets_iff`: the function stays in its buffer and resolves as it should unless
the empty directory makes it write one octet too many, or a path that fits is turned
away.
-/

namespace Smolvfs

open Octets Blit

/-- `cwd[0] == '/'` -/
def absolute (path : CStr) : Bool := path.bytes.head? == some 47

/-- The directory's copy into the buffer, and `cwdlen` after it. -/
def copyCwd (tmp : Bytes) (cwd : Option CStr) (cwdlen : Nat) : Option (Bytes × Nat) :=
  match cwd.filter absolute with
  | some cwd => (blit tmp 0 cwd.bytes).map fun tmp => (tmp, cwdlen)
  | none => (blit tmp 0 [47]).map fun tmp => (tmp, 1)

/-- `vfs_resolve` on its scratch buffer; none is a write past the end of it. -/
def vfsResolveInPlace (tmp : Vector UInt8 VFS_PATH_MAX) (bufsz : Nat) (path : CStr) (cwd : Option CStr) :
    Option (Except VfsStatus Bytes) :=
  if path.bytes = [] then some (.error .ebadpath)
  else if absolute path then vfsNormalizeInPlace bufsz path
  else
    let cwdlen := (cwd.map fun cwd => cwd.bytes.length).getD 1
    let plen := path.bytes.length
    if cwdlen + 1 + plen + 1 > VFS_PATH_MAX then some (.error .ebadpath)
    else do
      let (tmp, cwdlen) ← copyCwd tmp.toList cwd cwdlen
      let tmp ← blit tmp cwdlen [47]
      let tmp ← blit tmp (cwdlen + 1) (path.bytes ++ [0])
      vfsNormalizeInPlace bufsz (CStr.ofBuf tmp)

/-! ## What it should do -/

/-- The directory a relative path is resolved from. -/
def resolveBase (cwd : Option CStr) : CStr := (cwd.filter absolute).getD (lit ['/'])

/-- What is said of resolving a path. -/
structure ResolveMeets (tmp : Vector UInt8 VFS_PATH_MAX) (bufsz : Nat) (path : CStr) (cwd : Option CStr) : Prop where
  /-- The scratch buffer is written below its end. -/
  inside : vfsResolveInPlace tmp bufsz path cwd ≠ none
  /-- A path from the root is normalized. -/
  root : absolute path → vfsResolveInPlace tmp bufsz path cwd = vfsNormalizeInPlace bufsz path
  /-- Any other is normalized behind its directory, unless the two are too long. -/
  relative : ¬absolute path →
    vfsResolveInPlace tmp bufsz path cwd = vfsNormalizeInPlace bufsz ((resolveBase cwd).slash path) ∨
      vfsResolveInPlace tmp bufsz path cwd = some (.error .ebadpath) ∧
        ((resolveBase cwd).slash path).bytes.length + 1 > VFS_PATH_MAX

/-- The empty directory is counted as no octet and written as one. -/
def Overruns (path : CStr) (cwd : Option CStr) : Prop :=
  cwd = some (lit []) ∧ path.bytes.length = VFS_PATH_MAX - 2

/-- A path that is empty, or counted with a directory that is not the one it is resolved from. -/
def TurnedAway (path : CStr) (cwd : Option CStr) : Prop :=
  path.bytes = [] ∨
    ∃ dir, cwd = some dir ∧ ¬absolute dir ∧ dir.bytes.length + 1 + path.bytes.length + 1 > VFS_PATH_MAX

/-- What is normalized does not fit, before or after. -/
def DoesNotFit (bufsz : Nat) (path : CStr) : Prop :=
  path.bytes.length + 1 > VFS_PATH_MAX ∨ (referencePath path.bytes).length + 1 > bufsz

/-! ## The copies -/

/-- The three copies leave the directory, a slash and the path, with its NUL. -/
theorem scratch_copies (tmp : Bytes) (base path : CStr)
    (h : base.bytes.length + 1 + path.bytes.length + 1 ≤ tmp.length) :
    ∃ t1 t2 t3, blit tmp 0 base.bytes = some t1 ∧ blit t1 base.bytes.length [47] = some t2 ∧
      blit t2 (base.bytes.length + 1) (path.bytes ++ [0]) = some t3 ∧ CStr.ofBuf t3 = base.slash path := by
  obtain ⟨a, b, c, rfl, ha, hb⟩ := split_at tmp base.bytes.length (1 + path.bytes.length + 1) (by omega)
  obtain ⟨s, d, n, rfl, hs, hd⟩ := split_at b 1 path.bytes.length (by omega)
  have hn : n.length = 1 := by
    simp only [List.length_append] at hb
    omega
  have h1 : blit (a ++ (s ++ (d ++ n) ++ c)) 0 base.bytes = some (base.bytes ++ (s ++ (d ++ n) ++ c)) :=
    blit_middle [] a _ base.bytes ha.symm
  have h2 : blit (base.bytes ++ (s ++ (d ++ n) ++ c)) base.bytes.length [47] =
      some (base.bytes ++ ([47] ++ (d ++ n ++ c))) := by
    rw [List.append_assoc s]
    exact blit_middle base.bytes s _ [47] (by simp [hs])
  have h3 : blit (base.bytes ++ ([47] ++ (d ++ n ++ c))) (base.bytes.length + 1) (path.bytes ++ [0]) =
      some (base.bytes ++ [47] ++ (path.bytes ++ [0] ++ c)) := by
    have hlen : base.bytes.length + 1 = (base.bytes ++ [47]).length := by simp
    rw [← List.append_assoc base.bytes, hlen]
    exact blit_middle _ (d ++ n) c _ (by simp [hd, hn])
  refine ⟨_, _, _, h1, h2, h3, ?_⟩
  have hshape : base.bytes ++ [47] ++ (path.bytes ++ [0] ++ c) = (base.slash path).bytes ++ 0 :: c := by simp
  apply CStr.ext
  rw [hshape]
  exact takeWhile_ne_append _ c (base.slash path).noNul

/-- A directory's octet too many leaves no room for the NUL. -/
theorem scratch_overrun (tmp t1 t2 : Bytes) (path : CStr) (h1 : blit tmp 0 [47] = some t1)
    (h2 : blit t1 1 [47] = some t2) (hlen : tmp.length = path.bytes.length + 2) :
    blit t2 2 (path.bytes ++ [0]) = none := by
  rw [blit_eq_none, length_blit h2, length_blit h1, List.length_append, List.length_singleton]
  omega

section
variable (tmp : Vector UInt8 VFS_PATH_MAX) (bufsz : Nat) (path : CStr) (cwd : Option CStr)

theorem normalize_long (h : path.bytes.length + 1 > VFS_PATH_MAX) :
    vfsNormalizeInPlace bufsz path = some (.error .ebadpath) := by
  rw [vfsNormalizeInPlace_eq, vfsNormalize_eq, if_neg fun hc => by omega]

theorem normalize_refused (hroot : absolute path) :
    vfsNormalizeInPlace bufsz path = some (.error .ebadpath) ↔ DoesNotFit bufsz path := by
  have hhead : path.bytes.head? = some 47 := by simpa [absolute] using hroot
  rw [vfsNormalizeInPlace_eq, vfsNormalize_eq]
  unfold DoesNotFit
  split
  · next hfits =>
    constructor
    · intro h
      cases Option.some.inj h
    · intro h
      omega
  · next hnot =>
    constructor
    · intro _
      by_contra hfits
      exact hnot ⟨hhead, by omega, by omega⟩
    · intro _
      rfl

theorem absolute_base : absolute (resolveBase cwd) := by
  unfold resolveBase
  cases hc : cwd.filter absolute with
  | none => rfl
  | some dir => exact (Option.filter_eq_some_iff.mp hc).2

theorem absolute_slash (base : CStr) (h : absolute base) : absolute (base.slash path) := by
  have hhead : base.bytes.head? = some 47 := by simpa [absolute] using h
  simp [absolute, List.head?_append, hhead]

/-- Where the directory is the one that was counted, its length is. -/
theorem counted_base (h : ∀ dir, cwd = some dir → absolute dir) :
    (cwd.map fun cwd => cwd.bytes.length).getD 1 = (resolveBase cwd).bytes.length := by
  cases cwd with
  | none => rfl
  | some dir =>
    have hdir : (some dir).filter absolute = some dir := Option.filter_eq_some_iff.mpr ⟨rfl, h dir rfl⟩
    unfold resolveBase
    rw [hdir]
    rfl

/-- What is counted leaves room, but for one octet of the empty directory. -/
theorem room_of_counted (hover : ¬Overruns path cwd)
    (hcount : (cwd.map fun cwd => cwd.bytes.length).getD 1 + 1 + path.bytes.length + 1 ≤ VFS_PATH_MAX) :
    (resolveBase cwd).bytes.length + 1 + path.bytes.length + 1 ≤ VFS_PATH_MAX := by
  by_cases hdir : ∀ dir, cwd = some dir → absolute dir
  · rw [counted_base cwd hdir] at hcount
    exact hcount
  · push Not at hdir
    obtain ⟨dir, rfl, hnot⟩ := hdir
    have hbase : resolveBase (some dir) = lit ['/'] := by
      unfold resolveBase
      rw [Option.filter_eq_none_iff.mpr fun d hd => Option.some.inj hd ▸ hnot]
      rfl
    have hone : (lit ['/']).bytes.length = 1 := rfl
    rw [Option.map_some, Option.getD_some] at hcount
    rw [hbase, hone]
    by_contra hc
    have hempty : dir.bytes = [] := List.eq_nil_of_length_eq_zero (by omega)
    refine hover ⟨congrArg some (CStr.ext hempty), ?_⟩
    rw [hempty, List.length_nil] at hcount
    omega

theorem resolve_absolute (h : absolute path) :
    vfsResolveInPlace tmp bufsz path cwd = vfsNormalizeInPlace bufsz path := by
  have hne : path.bytes ≠ [] := by
    intro hnil
    rw [absolute, hnil] at h
    cases h
  unfold vfsResolveInPlace
  rw [if_neg hne, if_pos h]

variable (hrel : ¬absolute path)
include hrel

/-- What the count finds too long is turned away. -/
theorem resolve_counted (h : (cwd.map fun cwd => cwd.bytes.length).getD 1 + 1 + path.bytes.length + 1 > VFS_PATH_MAX) :
    vfsResolveInPlace tmp bufsz path cwd = some (.error .ebadpath) := by
  unfold vfsResolveInPlace
  rw [if_neg hrel]
  split
  · rfl
  · exact if_pos h

theorem resolve_turnedAway (h : TurnedAway path cwd) :
    vfsResolveInPlace tmp bufsz path cwd = some (.error .ebadpath) := by
  rcases h with hempty | ⟨dir, rfl, -, hlong⟩
  · exact if_pos hempty
  · exact resolve_counted tmp bufsz path (some dir) hrel hlong

/-- What it does not is resolved, if there is room. -/
theorem resolve_fits (hne : path.bytes ≠ [])
    (hcount : (cwd.map fun cwd => cwd.bytes.length).getD 1 + 1 + path.bytes.length + 1 ≤ VFS_PATH_MAX)
    (hroom : (resolveBase cwd).bytes.length + 1 + path.bytes.length + 1 ≤ VFS_PATH_MAX) :
    vfsResolveInPlace tmp bufsz path cwd = vfsNormalizeInPlace bufsz ((resolveBase cwd).slash path) := by
  obtain ⟨t1, t2, t3, h1, h2, h3, hall⟩ := scratch_copies tmp.toList (resolveBase cwd) path (by simpa using hroom)
  have hcopy : copyCwd tmp.toList cwd ((cwd.map fun cwd => cwd.bytes.length).getD 1) =
      some (t1, (resolveBase cwd).bytes.length) := by
    unfold copyCwd
    unfold resolveBase at h1 ⊢
    cases hdir : cwd.filter absolute with
    | none =>
      rw [hdir] at h1
      have h1' : blit tmp.toList 0 [47] = some t1 := h1
      simp only [h1']
      rfl
    | some dir =>
      obtain ⟨rfl, -⟩ := Option.filter_eq_some_iff.mp hdir
      rw [hdir] at h1
      simp only [Option.getD_some] at h1
      simp only [h1, Option.map_some, Option.getD_some]
  unfold vfsResolveInPlace
  rw [if_neg hne, if_neg hrel]
  dsimp only
  rw [if_neg (by omega), hcopy]
  simp only [h2, h3, hall, Option.bind_eq_bind, Option.bind_some]

/-- The empty directory may run over the end. -/
theorem resolve_overruns (h : Overruns path cwd) : vfsResolveInPlace tmp bufsz path cwd = none := by
  obtain ⟨rfl, hlen⟩ := h
  have hmax : VFS_PATH_MAX = 4096 := rfl
  have hne : path.bytes ≠ [] := by
    intro hnil
    rw [hnil, hmax] at hlen
    cases hlen
  have hcopy : copyCwd tmp.toList (some (lit [])) 0 = (blit tmp.toList 0 [47]).map fun tmp => (tmp, 1) := rfl
  have hzero : (lit []).bytes.length = 0 := rfl
  unfold vfsResolveInPlace
  rw [if_neg hne, if_neg hrel]
  dsimp only
  rw [Option.map_some, Option.getD_some, hzero, if_neg (by omega), hcopy]
  cases h1 : blit tmp.toList 0 [47] with
  | none => rfl
  | some t1 =>
    cases h2 : blit t1 1 [47] with
    | none => simp [h2]
    | some t2 => simp [h2, scratch_overrun _ _ _ path h1 h2 (by rw [Vector.length_toList]; omega)]

/-- Where neither happens, the function does what it should. -/
theorem resolve_relative (hover : ¬Overruns path cwd) (haway : ¬TurnedAway path cwd) :
    vfsResolveInPlace tmp bufsz path cwd = vfsNormalizeInPlace bufsz ((resolveBase cwd).slash path) := by
  have hne : path.bytes ≠ [] := fun hnil => haway (Or.inl hnil)
  by_cases hcount : (cwd.map fun cwd => cwd.bytes.length).getD 1 + 1 + path.bytes.length + 1 ≤ VFS_PATH_MAX
  · exact resolve_fits tmp bufsz path cwd hrel hne hcount (room_of_counted path cwd hover hcount)
  · have hdir : ∀ dir, cwd = some dir → absolute dir := by
      rintro dir rfl
      by_contra hnot
      rw [Option.map_some, Option.getD_some] at hcount
      exact haway (Or.inr ⟨dir, rfl, hnot, by omega⟩)
    have hbase := counted_base cwd hdir
    rw [resolve_counted tmp bufsz path cwd hrel (by omega), normalize_long]
    rw [CStr.slash_bytes, List.length_append, List.length_cons]
    omega

end

theorem filter_absolute (cwd : Option CStr) :
    (cwd.map CStr.bytes).filter (fun c => c.head? == some 47) = (cwd.filter absolute).map CStr.bytes := by
  cases cwd with
  | none => rfl
  | some dir =>
    rw [Option.map_some, Option.filter_some, Option.filter_some]
    unfold absolute
    split <;> rfl

/-- Where it stays in its buffer, it is the function on paths. -/
theorem vfsResolveInPlace_eq (tmp : Vector UInt8 VFS_PATH_MAX) (bufsz : Nat) (path : CStr) (cwd : Option CStr)
    (hover : absolute path ∨ ¬Overruns path cwd) :
    vfsResolveInPlace tmp bufsz path cwd = some (vfsResolve bufsz path.bytes (cwd.map CStr.bytes)) := by
  have hcounted : (cwd.map CStr.bytes).map List.length = cwd.map fun cwd => cwd.bytes.length := Option.map_map ..
  unfold vfsResolve
  rw [hcounted]
  by_cases hne : path.bytes = []
  · rw [if_pos hne]
    exact if_pos hne
  · rw [if_neg hne]
    by_cases hroot : absolute path
    · rw [if_pos (by simpa [absolute] using hroot), resolve_absolute tmp bufsz path cwd hroot, vfsNormalizeInPlace_eq]
    · rw [if_neg (by simpa [absolute] using hroot)]
      by_cases hcount : (cwd.map fun cwd => cwd.bytes.length).getD 1 + 1 + path.bytes.length + 1 ≤ VFS_PATH_MAX
      · have hroom := room_of_counted path cwd (hover.resolve_left hroot) hcount
        rw [if_neg (by omega), resolve_fits tmp bufsz path cwd hroot hne hcount hroom, vfsNormalizeInPlace_eq]
        rw [filter_absolute]
        unfold resolveBase
        cases cwd.filter absolute <;> rfl
      · rw [if_pos (by omega), resolve_counted tmp bufsz path cwd hroot (by omega)]

/-- **Exactly when resolving is bounded and right.** -/
theorem resolve_meets_iff (tmp : Vector UInt8 VFS_PATH_MAX) (bufsz : Nat) (path : CStr) (cwd : Option CStr) :
    ResolveMeets tmp bufsz path cwd ↔
      absolute path ∨ ¬Overruns path cwd ∧
        (TurnedAway path cwd → DoesNotFit bufsz ((resolveBase cwd).slash path)) := by
  have hinside : ∀ p, vfsNormalizeInPlace bufsz p ≠ none := by
    intro p hp
    rw [vfsNormalizeInPlace_eq] at hp
    cases hp
  by_cases hroot : absolute path
  · have hrun := resolve_absolute tmp bufsz path cwd hroot
    constructor
    · intro _
      exact Or.inl hroot
    · intro _
      exact ⟨hrun ▸ hinside path, fun _ => hrun, fun hrel => absurd hroot hrel⟩
  · constructor
    · intro h
      refine Or.inr ⟨fun hover => h.inside (resolve_overruns tmp bufsz path cwd hroot hover), fun haway => ?_⟩
      have hrun := resolve_turnedAway tmp bufsz path cwd hroot haway
      rcases h.relative hroot with hsame | ⟨-, hlong⟩
      · rw [hrun] at hsame
        exact (normalize_refused bufsz _ (absolute_slash path _ (absolute_base cwd))).mp hsame.symm
      · exact Or.inl hlong
    · rintro (h | ⟨hover, hfit⟩)
      · exact absurd h hroot
      · have hrun : vfsResolveInPlace tmp bufsz path cwd = vfsNormalizeInPlace bufsz
          ((resolveBase cwd).slash path) := by
          by_cases haway : TurnedAway path cwd
          · rw [(normalize_refused bufsz _ (absolute_slash path _ (absolute_base cwd))).mpr (hfit haway)]
            exact resolve_turnedAway tmp bufsz path cwd hroot haway
          · exact resolve_relative tmp bufsz path cwd hroot hover haway
        exact ⟨hrun ▸ hinside _, fun h => absurd h hroot, fun _ => Or.inl hrun⟩

/-- A name of so many letters. -/
def letters (n : Nat) : CStr := ⟨List.replicate n 97, fun h => absurd (List.eq_of_mem_replicate h) (by decide)⟩

/-- With a name of 4094 letters the empty directory does. -/
theorem resolve_overruns_letters :
    ¬ResolveMeets (Vector.replicate VFS_PATH_MAX 0) VFS_PATH_MAX (letters 4094) (some (lit [])) := by
  intro h
  exact h.inside (resolve_overruns _ _ _ _ (by decide) ⟨rfl, List.length_replicate⟩)

end Smolvfs
