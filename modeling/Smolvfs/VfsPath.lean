import Smolvfs.Basic
import Smolvfs.Lib.Names

/-!
# Paths of the virtual filesystem

`vfs_normalize`, `path_parent` and `validate_path_components` of `vfs.c`.

A normalized path other than the root is its components, each after a slash
(`vfsNormalize_ok`); its parent is the path without the last of them
(`pathParent_concat`), and what lies below it has more of them.
-/

namespace Smolvfs

open Octets Names

/-- `VFS_OK` and the error codes. -/
inductive VfsStatus
  | ok | err | enotfound | eexist | eperm | equota | enotdir | eisdir | enotempty | ebadpath | enomem
  deriving DecidableEq, Repr

def VFS_PATH_MAX : Nat := 4096

/-! ## Normalizing -/

/-- A component of `vfs_normalize`'s loop, on the components so far. -/
def resolveStep (comps : List Bytes) (tok : Bytes) : List Bytes :=
  if tok = [46] then comps
  else if tok = [46, 46] then comps.dropLast
  else comps ++ [tok]

/-- The components that are left of a path. -/
def pathComponents (path : Bytes) : List Bytes := (parts 47 path).foldl resolveStep []

/-- The loop that rebuilds the path, from position `pos` of the buffer on. -/
def rebuildPath (bufsz : Nat) : Nat → List Bytes → Except VfsStatus Bytes
  | _, [] => .ok []
  | pos, comp :: comps =>
    if pos + 1 + comp.length + 1 > bufsz then .error .ebadpath
    else (rebuildPath bufsz (pos + 1 + comp.length) comps).map fun rest => 47 :: (comp ++ rest)

/-- `vfs_normalize` -/
def vfsNormalize (bufsz : Nat) (path : Bytes) : Except VfsStatus Bytes :=
  if path.head? ≠ some 47 then .error .ebadpath
  else if path.length ≥ VFS_PATH_MAX then .error .ebadpath
  else if pathComponents path = [] then (if bufsz < 2 then .error .ebadpath else .ok [47])
  else rebuildPath bufsz 0 (pathComponents path)

/-- What stands before the last slash. -/
def dirPart (path : Bytes) : Bytes := ((path.reverse.dropWhile (· != 47)).drop 1).reverse

/-- `path_parent` -/
def pathParent (bufsz : Nat) (path : Bytes) : Except VfsStatus Bytes :=
  if path = [47] then .error .enotfound
  else if dirPart path = [] then (if bufsz < 2 then .error .ebadpath else .ok [47])
  else if (dirPart path).length + 1 > bufsz then .error .ebadpath
  else .ok (dirPart path)

/-! ## Validating -/

/-- `illegal_chars` -/
def ILLEGAL_CHARS : Bytes := (lit [':', '/', '\\', '*', '?', '"', '<', '>', '|']).bytes

/-- The scan of `validate_path_components`, with the characters of the current component and whether they
are all dots. -/
def validateFrom : Nat → Bool → Bytes → Bool
  | comp, dots, [] => decide (comp = 0) || !(dots && decide (comp ≤ 2))
  | comp, dots, c :: rest =>
    if c ≠ 47 then
      if c.toNat < 0x20 ∨ c ∈ ILLEGAL_CHARS then false else validateFrom (comp + 1) (dots && c == 46) rest
    else if comp = 0 then false
    else if dots ∧ comp ≤ 2 then false
    else validateFrom 0 true rest

/-- `validate_path_components` -/
def validatePathComponents (path : Bytes) : VfsStatus :=
  if path = [47] then .ok
  else if path.length ≥ VFS_PATH_MAX then .ebadpath
  else if validateFrom 0 true (path.drop 1) then .ok
  else .ebadpath

/-- `strncmp(p, dir, len) == 0 && p[len] == '/'` -/
def pathBelow (dir p : Bytes) : Bool := (dir ++ [47]).isPrefixOf p

/-! ## Normalized paths -/

/-- A component of a normalized path. -/
def Component (comp : Bytes) : Prop := IsName 47 comp ∧ comp ≠ [46] ∧ comp ≠ [46, 46]

instance (comp : Bytes) : Decidable (Component comp) := inferInstanceAs (Decidable (_ ∧ _))

/-- The components of a path, as they stand. -/
structure Components (comps : List Bytes) : Prop where
  all : ∀ comp ∈ comps, Component comp

theorem Components.names {comps : List Bytes} (h : Components comps) : ∀ comp ∈ comps, IsName 47 comp :=
  fun comp hc => (h.all comp hc).1

theorem components_nil : Components [] := ⟨by simp⟩

theorem components_append (a b : List Bytes) : Components (a ++ b) ↔ Components a ∧ Components b := by
  constructor
  · intro h
    exact ⟨⟨fun c hc => h.all c (List.mem_append_left _ hc)⟩, ⟨fun c hc => h.all c (List.mem_append_right _ hc)⟩⟩
  · rintro ⟨ha, hb⟩
    exact ⟨fun c hc => (List.mem_append.mp hc).elim (ha.all c) (hb.all c)⟩

/-- The path of components; those of the root are none. -/
def pathOf (comps : List Bytes) : Bytes := if comps = [] then [47] else join 47 comps

@[simp] theorem pathOf_nil : pathOf [] = [47] := rfl

theorem pathOf_ne_nil (comps : List Bytes) (h : comps ≠ []) : pathOf comps = join 47 comps := if_neg h

theorem parts_pathOf (comps : List Bytes) (h : ∀ comp ∈ comps, IsName 47 comp) : parts 47 (pathOf comps) = comps := by
  by_cases hn : comps = []
  · subst hn
    simp
  · rw [pathOf_ne_nil comps hn, parts_join 47 comps h]

theorem pathOf_inj (a b : List Bytes) (ha : ∀ comp ∈ a, IsName 47 comp) (hb : ∀ comp ∈ b, IsName 47 comp)
    (h : pathOf a = pathOf b) : a = b := by
  rw [← parts_pathOf a ha, h, parts_pathOf b hb]

theorem pathOf_eq_root (comps : List Bytes) (h : ∀ comp ∈ comps, IsName 47 comp) :
    pathOf comps = [47] ↔ comps = [] := by
  constructor
  · intro heq
    exact pathOf_inj comps [] h (by simp) heq
  · rintro rfl
    rfl

/-- A component after others is taken over. -/
theorem resolveStep_component (comps : List Bytes) (comp : Bytes) (h : Component comp) :
    resolveStep comps comp = comps ++ [comp] := by
  unfold resolveStep
  rw [if_neg h.2.1, if_neg h.2.2]

theorem resolve_components (comps more : List Bytes) (h : Components more) :
    more.foldl resolveStep comps = comps ++ more := by
  induction more generalizing comps with
  | nil => simp
  | cons c more ih =>
    rw [List.foldl_cons, resolveStep_component comps c (h.all c (by simp)),
      ih _ ⟨fun x hx => h.all x (by simp [hx])⟩]
    simp

theorem resolveStep_ok (comps : List Bytes) (tok : Bytes) (h : Components comps) (ht : IsName 47 tok) :
    Components (resolveStep comps tok) := by
  unfold resolveStep
  split
  · exact h
  · next h1 =>
    split
    · exact ⟨fun c hc => h.all c (List.dropLast_subset _ hc)⟩
    · next h2 =>
      refine (components_append _ _).mpr ⟨h, ⟨?_⟩⟩
      intro c hc
      obtain rfl := List.mem_singleton.mp hc
      exact ⟨ht, h1, h2⟩

theorem resolve_ok (comps toks : List Bytes) (h : Components comps) (ht : ∀ tok ∈ toks, IsName 47 tok) :
    Components (toks.foldl resolveStep comps) := by
  induction toks generalizing comps with
  | nil => exact h
  | cons tok toks ih =>
    exact ih _ (resolveStep_ok comps tok h (ht tok (by simp))) fun t hm => ht t (by simp [hm])

theorem pathComponents_ok (path : Bytes) : Components (pathComponents path) :=
  resolve_ok [] _ components_nil fun tok h => isName_of_mem_parts 47 path tok h

theorem pathComponents_pathOf (comps : List Bytes) (h : Components comps) : pathComponents (pathOf comps) = comps := by
  unfold pathComponents
  rw [parts_pathOf comps h.names, resolve_components [] comps h]
  rfl

/-- A rebuilt path is its components, if it fits. -/
theorem rebuildPath_eq (bufsz pos : Nat) (comps : List Bytes) (h : comps ≠ []) :
    rebuildPath bufsz pos comps =
      if pos + (join 47 comps).length + 1 > bufsz then .error .ebadpath else .ok (join 47 comps) := by
  induction comps generalizing pos with
  | nil => exact absurd rfl h
  | cons comp comps ih =>
    unfold rebuildPath
    have hlen : (join 47 (comp :: comps)).length = 1 + comp.length + (join 47 comps).length := by
      rw [join_cons, List.length_cons, List.length_append]
      omega
    by_cases hc : comps = []
    · subst hc
      simp only [join_nil, List.length_nil, Nat.add_zero] at hlen
      rw [hlen]
      by_cases hf : pos + 1 + comp.length + 1 > bufsz
      · rw [if_pos hf, if_pos (by omega)]
      · rw [if_neg hf, if_neg (by omega)]
        simp [rebuildPath, Except.map]
    · rw [ih _ hc, hlen]
      by_cases hf : pos + (1 + comp.length + (join 47 comps).length) + 1 > bufsz
      · rw [if_pos hf]
        split
        · rfl
        · rw [if_pos (by omega)]
          rfl
      · rw [if_neg hf, if_neg (by omega), if_neg (by omega)]
        simp [Except.map]

/-- **What `vfs_normalize` gives is the path of components.** -/
theorem vfsNormalize_ok (bufsz : Nat) (path norm : Bytes) (h : vfsNormalize bufsz path = .ok norm) :
    norm = pathOf (pathComponents path) ∧ norm.length + 1 ≤ bufsz := by
  unfold vfsNormalize at h
  split at h
  · cases h
  · split at h
    · cases h
    · split at h
      · next hn =>
        split at h
        · cases h
        · obtain rfl := Except.ok.inj h
          rw [hn]
          exact ⟨rfl, by simp only [List.length_cons, List.length_nil]; omega⟩
      · next hn =>
        rw [rebuildPath_eq _ _ _ hn] at h
        split at h
        · cases h
        · obtain rfl := Except.ok.inj h
          exact ⟨(pathOf_ne_nil _ hn).symm, by omega⟩

/-- An error of `vfs_normalize` is one. -/
theorem normalize_error {path : Bytes} {rc : VfsStatus} (h : vfsNormalize VFS_PATH_MAX path = .error rc) :
    rc ≠ .ok := by
  have hrebuild : ∀ bufsz pos comps rc, rebuildPath bufsz pos comps = .error rc → rc ≠ .ok := by
    intro bufsz pos comps rc h
    by_cases hc : comps = []
    · subst hc
      cases h
    · rw [rebuildPath_eq _ _ _ hc] at h
      split at h
      · obtain rfl := Except.error.inj h
        simp
      · cases h
  unfold vfsNormalize at h
  split at h
  · obtain rfl := Except.error.inj h
    simp
  · split at h
    · obtain rfl := Except.error.inj h
      simp
    · split at h
      · split at h
        · obtain rfl := Except.error.inj h
          simp
        · cases h
      · exact hrebuild _ _ _ rc h

/-! ## Parents -/

theorem dirPart_slash (a name : Bytes) (h : (47 : UInt8) ∉ name) : dirPart (a ++ 47 :: name) = a := by
  unfold dirPart
  have hrev : (a ++ 47 :: name).reverse = name.reverse ++ 47 :: a.reverse := by simp
  rw [hrev, List.dropWhile_append_of_pos]
  · simp
  · intro c hc
    have hc' : c ∈ name := by simpa using hc
    have : c ≠ 47 := by
      rintro rfl
      exact h hc'
    simpa using this

/-- The path without its last component. -/
theorem dirPart_pathOf (comps : List Bytes) (comp : Bytes) (h : (47 : UInt8) ∉ comp) :
    dirPart (pathOf (comps ++ [comp])) = join 47 comps := by
  rw [pathOf_ne_nil _ (by simp), join_concat, dirPart_slash _ comp h]

theorem pathParent_concat (comps : List Bytes) (comp : Bytes) (h : IsName 47 comp)
    (hlen : (pathOf (comps ++ [comp])).length ≤ VFS_PATH_MAX) :
    pathParent VFS_PATH_MAX (pathOf (comps ++ [comp])) = .ok (pathOf comps) := by
  have hne : pathOf (comps ++ [comp]) ≠ [47] := by
    rw [pathOf_ne_nil _ (by simp), join_concat]
    intro heq
    cases hj : join 47 comps with
    | nil =>
      rw [hj] at heq
      simp at heq
      exact h.1 heq
    | cons c cs =>
      rw [hj] at heq
      simp at heq
  unfold pathParent
  rw [if_neg hne, dirPart_pathOf comps comp h.2]
  by_cases hc : comps = []
  · subst hc
    rfl
  · rw [if_neg (join_ne_nil 47 comps hc), pathOf_ne_nil comps hc]
    rw [pathOf_ne_nil _ (by simp), join_concat, List.length_append, List.length_cons] at hlen
    rw [if_neg (by omega)]

/-! ## Below -/

theorem pathBelow_iff_starts (dir p : Bytes) : pathBelow dir p = true ↔ dir ++ [47] <+: p := by
  unfold pathBelow
  rw [List.isPrefixOf_iff_prefix]

theorem pathBelow_pathOf (a b : List Bytes) (ha : ∀ comp ∈ a, IsName 47 comp) (hb : ∀ comp ∈ b, IsName 47 comp)
    (hne : a ≠ []) : pathBelow (pathOf a) (pathOf b) = true ↔ ∃ name names, b = a ++ name :: names := by
  rw [pathBelow_iff_starts, pathOf_ne_nil a hne]
  by_cases hbn : b = []
  · subst hbn
    constructor
    · rintro ⟨rest, hrest⟩
      have hlen := congrArg List.length hrest
      have hpos := List.length_pos_of_ne_nil (join_ne_nil 47 a hne)
      simp only [pathOf_nil, List.length_append, List.length_cons, List.length_nil] at hlen
      omega
    · rintro ⟨name, names, h⟩
      simp at h
  · rw [pathOf_ne_nil b hbn]
    exact join_below_iff 47 a b ha hb

end Smolvfs
