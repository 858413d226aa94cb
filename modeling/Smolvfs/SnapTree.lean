import Smolvfs.Lib.TreeDiff
import Smolvfs.Tree
import Smolvfs.VfsPath

/-!
# A snapshot as a tree of paths

The directory objects below a root give an entry to each path of names (`entryAt`).
Names in a directory that loads are distinct and can stand between slashes, so every
path has one entry at most and the paths are a closed tree (`entryAt_closed`).
-/

namespace Smolvfs

open Octets Names PathTree

/-! ## Entries by path -/

/-- What there is at a path: a directory, or a file with its contents or their address. -/
inductive PathKind
  | dir
  | file (bytes : Bytes)
  deriving DecidableEq

section
variable (cs : Codecs) (flt : Faults) (st : Store)

/-- The entry of a name in the directory at an address. -/
def entryIn (hash name : Bytes) : Option Entry :=
  match casTreeLoad cs flt st hash with
  | .error _ => none
  | .ok dir => dir.find? fun e => decide (e.name.bytes = name)

/-- The entry at a path, by way of directories. -/
def entryAt : Bytes → List Bytes → Option Entry
  | _, [] => none
  | hash, name :: names =>
    match names with
    | [] => entryIn cs flt st hash name
    | _ :: _ => (entryIn cs flt st hash name).bind fun e => if e.isDir then entryAt e.hash names else none

/-- The address of the directory at a path. -/
def dirHash : Bytes → List Bytes → Option Bytes
  | root, [] => some root
  | root, name :: names =>
    (entryIn cs flt st root name).bind fun e => if e.isDir then dirHash e.hash names else none

/-- Every directory that is reached loads. -/
def TreeComplete (root : Bytes) : Prop :=
  ∀ d hash, dirHash cs flt st root d = some hash → ∃ dir, casTreeLoad cs flt st hash = .ok dir

variable {cs flt st}

/-! ## Directories that load -/

/-- The names in a directory that loads ascend, and each of them is one `cas_tree_dir_add` takes. -/
theorem casTreeLoad_names {hash : Bytes} {dir : Dir} (h : casTreeLoad cs flt st hash = .ok dir) :
    NamesAscending dir ∧ ∀ e ∈ dir, validName e.name = true := by
  unfold casTreeLoad at h
  split at h
  · cases h
  · next type data _ =>
    split at h
    · cases data with
      | nil => cases h
      | cons c p =>
        simp only [treeTextLoad] at h
        split at h
        · cases h
        · refine ⟨(textLoad_extends _ _ p [] dir List.Pairwise.nil h).2, ?_⟩
          apply textLoad_forall (fun e => validName e.name = true) _ _ p [] dir ?_ (by simp) h
          intro line linelen e _ _ _ hname
          exact hname
    · split at h
      · obtain ⟨hp, hs⟩ := htreeParseDir_listed _ data dir h
        exact ⟨hs, fun e he => (hp e he).name⟩
      · cases h

theorem isName_of_valid {name : CStr} (h : validName name = true) : IsName 47 name.bytes := by
  obtain ⟨hne, -, hslash, -⟩ := validName_spec name h
  exact ⟨hne, hslash⟩

/-- The entry of a name is the one in the list. -/
theorem entryIn_of_mem {hash : Bytes} {dir : Dir} (h : casTreeLoad cs flt st hash = .ok dir) {e : Entry}
    (he : e ∈ dir) :
    entryIn cs flt st hash e.name.bytes = some e := by
  obtain ⟨hs, -⟩ := casTreeLoad_names h
  unfold entryIn
  rw [h]
  dsimp only
  cases hf : dir.find? fun x => decide (x.name.bytes = e.name.bytes) with
  | none =>
    have hno := List.find?_eq_none.mp hf e he
    simp at hno
  | some x =>
    have hx := List.find?_some hf
    rw [decide_eq_true_eq] at hx
    rw [hs.eq_of_name x e (List.mem_of_find?_eq_some hf) he (CStr.ext hx)]

theorem entryIn_some {hash name : Bytes} {e : Entry} (h : entryIn cs flt st hash name = some e) :
    ∃ dir, casTreeLoad cs flt st hash = .ok dir ∧ e ∈ dir ∧ e.name.bytes = name := by
  unfold entryIn at h
  split at h
  · cases h
  · next dir hl => exact ⟨dir, hl, List.mem_of_find?_eq_some h, by simpa using List.find?_some h⟩

theorem entryIn_none {hash name : Bytes} {dir : Dir} (h : casTreeLoad cs flt st hash = .ok dir) :
    entryIn cs flt st hash name = none ↔ ∀ e ∈ dir, e.name.bytes ≠ name := by
  unfold entryIn
  rw [h]
  dsimp only
  rw [List.find?_eq_none]
  simp

/-! ## The tree -/

theorem entryAt_single (hash name : Bytes) : entryAt cs flt st hash [name] = entryIn cs flt st hash name := rfl

theorem entryAt_cons (hash name : Bytes) (names : List Bytes) (h : names ≠ []) :
    entryAt cs flt st hash (name :: names) =
      (entryIn cs flt st hash name).bind fun e => if e.isDir then entryAt cs flt st e.hash names else none := by
  cases names with
  | nil => exact absurd rfl h
  | cons n ns => rfl

/-- **An entry is found in the directory above it.** -/
theorem entryAt_concat (root : Bytes) (d : List Bytes) (name : Bytes) :
    entryAt cs flt st root (d ++ [name]) =
      (dirHash cs flt st root d).bind fun hash => entryIn cs flt st hash name := by
  induction d generalizing root with
  | nil => rfl
  | cons n d ih =>
    rw [List.cons_append, entryAt_cons _ _ _ (by simp), dirHash]
    cases entryIn cs flt st root n with
    | none => rfl
    | some e =>
      simp only [Option.bind_some]
      split
      · exact ih e.hash
      · rfl

/-- A directory is an entry that says so. -/
theorem dirHash_eq_some (root : Bytes) (d : List Bytes) (hash : Bytes) :
    dirHash cs flt st root d = some hash ↔
      d = [] ∧ hash = root ∨ ∃ e, entryAt cs flt st root d = some e ∧ e.isDir = true ∧ e.hash = hash := by
  induction d generalizing root with
  | nil =>
    rw [dirHash, Option.some.injEq]
    constructor
    · rintro rfl
      exact Or.inl ⟨rfl, rfl⟩
    · rintro (⟨-, rfl⟩ | ⟨e, he, -⟩)
      · rfl
      · cases he
  | cons n d ih =>
    rw [dirHash]
    by_cases hd : d = []
    · subst hd
      rw [entryAt_single]
      cases entryIn cs flt st root n with
      | none => simp
      | some e =>
        by_cases hdir : e.isDir = true <;> simp [hdir, dirHash]
    · rw [entryAt_cons _ _ _ hd]
      cases entryIn cs flt st root n with
      | none => simp
      | some e =>
        by_cases hdir : e.isDir = true
        · simp only [Option.bind_some, if_pos hdir, ih e.hash, hd, false_and, false_or, reduceCtorEq]
        · simp [hdir]

theorem entryAt_closed (root : Bytes) : Closed (fun e : Entry => e.isDir = true) (entryAt cs flt st root) where
  root := rfl
  parent p n e he := by
    rw [entryAt_concat] at he
    obtain ⟨hash, hd, -⟩ := Option.bind_eq_some_iff.mp he
    rcases (dirHash_eq_some root p hash).mp hd with ⟨hnil, -⟩ | ⟨x, hx, hdir, -⟩
    · exact Or.inl hnil
    · exact Or.inr ⟨x, hx, hdir⟩

/-- The names on the way to an entry can stand between slashes. -/
theorem entryAt_names {root : Bytes} {p : List Bytes} {e : Entry} (h : entryAt cs flt st root p = some e) :
    ∀ c ∈ p, IsName 47 c := by
  induction p using List.reverseRecOn generalizing e with
  | nil => simp
  | append_singleton d name ih =>
    rw [entryAt_concat] at h
    obtain ⟨hash, hd, hin⟩ := Option.bind_eq_some_iff.mp h
    obtain ⟨dir, hload, he, rfl⟩ := entryIn_some hin
    have hname := isName_of_valid ((casTreeLoad_names hload).2 e he)
    intro c hc
    rcases List.mem_append.mp hc with hc | hc
    · rcases (dirHash_eq_some root d hash).mp hd with ⟨rfl, -⟩ | ⟨x, hx, -, -⟩
      · cases hc
      · exact ih hx c hc
    · obtain rfl := List.mem_singleton.mp hc
      exact hname

/-- The entries of a directory are what the tree has right below it. -/
theorem entryAt_of_mem {root : Bytes} {d : List Bytes} {hash : Bytes} (hd : dirHash cs flt st root d = some hash)
    {dir : Dir} (hload : casTreeLoad cs flt st hash = .ok dir) {e : Entry} (he : e ∈ dir) :
    entryAt cs flt st root (d ++ [e.name.bytes]) = some e := by
  rw [entryAt_concat, hd]
  exact entryIn_of_mem hload he

theorem entryAt_none_of_not_mem {root : Bytes} {d : List Bytes} {hash : Bytes}
    (hd : dirHash cs flt st root d = some hash) {dir : Dir} (hload : casTreeLoad cs flt st hash = .ok dir)
    (name : Bytes) :
    entryAt cs flt st root (d ++ [name]) = none ↔ ∀ e ∈ dir, e.name.bytes ≠ name := by
  rw [entryAt_concat, hd]
  exact entryIn_none hload

theorem dirHash_concat {root : Bytes} {d : List Bytes} {hash : Bytes} (hd : dirHash cs flt st root d = some hash)
    {dir : Dir} (hload : casTreeLoad cs flt st hash = .ok dir) {e : Entry} (he : e ∈ dir) (hdir : e.isDir = true) :
    dirHash cs flt st root (d ++ [e.name.bytes]) = some e.hash :=
  (dirHash_eq_some root _ _).mpr (Or.inr ⟨e, entryAt_of_mem hd hload he, hdir, rfl⟩)

end

end Smolvfs
