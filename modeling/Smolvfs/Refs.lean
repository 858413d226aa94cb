import Mathlib.Data.List.AList
import Smolvfs.Tree

/-!
# Refs and their logs

The directory `refs` of a depot: a ref is a file `NAME.root`, its history the
lines of `NAME.log`, each the hash of a root, a time and a comment.
`cas_tree_ref_foreach`, `cas_tree_ref_read`, `cas_tree_log_read` and
`cas_tree_ref_commit` of `cas-tree.c`; the listing is in the order the directory gives its names.

A log line of 1023 octets or more does not fit the reader's buffer, and what
stands after the last newline is a torn write, which is left out.
-/

namespace Smolvfs

open Octets Numeral

/-- The files of the refs directory by name. -/
abbrev RefFiles := AList fun _ : Bytes => Bytes

/-- The refs directory, if there is one. -/
abbrev Refs := Option RefFiles

/-- The contents of a file of it. -/
def refFile (refs : Refs) (file : Bytes) : Option Bytes := refs.bind fun dir => dir.lookup file

/-- `struct cas_tree`, with the refs directory of its depot. -/
structure CasTree where
  store : Store
  refs : Refs

def dotRoot : Bytes := (lit ['.', 'r', 'o', 'o', 't']).bytes
def dotLog : Bytes := (lit ['.', 'l', 'o', 'g']).bytes
def dotLock : Bytes := (lit ['.', 'l', 'o', 'c', 'k']).bytes
def dotPrev : Bytes := (lit ['.', 'p', 'r', 'e', 'v']).bytes
def dotTmp : Bytes := (lit ['.', 't', 'm', 'p']).bytes

/-- `valid_ref_name` -/
def validRefName (name : Bytes) : Bool :=
  decide (name.length ≠ 0) && decide (name.length ≤ 255) && decide (name ≠ [46]) && decide (name ≠ [46, 46]) &&
    name.all fun c => !(c.toNat < 0x20 || c == 47 || c == 92)

/-- A hex digit ends a run of blanks. -/
theorem hexVal_not_space (c : UInt8) (h : (hexVal c).isSome = true) : isSpace c = false ∧ c ≠ 32 := by
  have hge : 48 ≤ c.toNat := by
    unfold hexVal at h
    split at h
    · omega
    · split at h
      · omega
      · split at h
        · omega
        · cases h
  have hne : c ≠ 32 := by
    rintro rfl
    revert hge
    decide
  refine ⟨?_, hne⟩
  unfold isSpace
  simp only [Bool.or_eq_false_iff, beq_eq_false_iff_ne, ne_eq, Bool.and_eq_false_iff, decide_eq_false_iff_not]
  exact ⟨hne, .inr (by omega)⟩

/-! ## Listing -/

/-- The ref whose root a file of the directory is. -/
def refName (file : Bytes) : Option Bytes :=
  if file.length ≤ dotRoot.length then none
  else if file.drop (file.length - dotRoot.length) ≠ dotRoot then none
  else if file.length - dotRoot.length ≥ 256 then none
  else some (file.take (file.length - dotRoot.length))

/-- `cas_tree_ref_foreach`: the names handed out as long as the callback goes on.  It returns `CAS_OK`
whether or not the directory could be opened. -/
def casTreeRefForeach (flt : Faults) (refs : Refs) : List Bytes :=
  match refs with
  | none => []
  | some dir => if flt .openRefs then [] else dir.keys.filterMap refName

/-- How many octets `fgets` takes into a buffer of `size`: a line with its newline, or what fits, or what
is left. -/
def fgetsLen (size : Nat) (s : Bytes) : Nat :=
  min (size - 1) (match lineLen s with | some n => n + 1 | none => s.length)

/-! ## The root -/

/-- `cas_tree_ref_read`: the first line of the root file, when it has the length of a hash. -/
def casTreeRefRead (flt : Faults) (refs : Refs) (name : Bytes) : Except Status Bytes :=
  if validRefName name = false then .error .err
  else
    match refFile refs (name ++ dotRoot) with
    | none => .error .enotfound
    | some data =>
      if flt (.openRoot name) then .error .enotfound
      else if data = [] ∨ flt (.readRoot name) = true then .error .eio
      else
        let line := (CStr.ofBuf (data.take (fgetsLen (CAS_HASH_HEX + 2) data))).bytes
        let hash := if line.getLast? = some 10 then line.dropLast else line
        if hash.length ≠ CAS_HASH_HEX then .error .err else .ok hash

/-! ## Reading a log -/

/-- What `cas_tree_log_read` hands to its callback. -/
structure LogEntry where
  hash : Bytes
  timeS : BitVec 64
  timeNs : BitVec 32
  comment : Bytes
  deriving DecidableEq

/-- `sizeof(line)` in `cas_tree_log_read` -/
def LOG_LINE : Nat := 1024

/-- A line without its newline: the hash, a blank, and `sscanf(…, "%lld %d %n", …)`. -/
def parseLogLine (line : Bytes) : Option LogEntry :=
  if line.length < CAS_HASH_HEX + 1 then none
  else if slice line CAS_HASH_HEX 1 ≠ [32] then none
  else
    (scanInt 10 (line.drop (CAS_HASH_HEX + 1))).bind fun (timeS, s) =>
    (scanInt 10 s).map fun (timeNs, s) =>
      ⟨line.take CAS_HASH_HEX, BitVec.ofInt 64 (strtol timeS), BitVec.ofInt 32 (strtol timeNs), skipSpace s⟩

/-- The loop of `cas_tree_log_read`, with the number of lines read; each line takes an octet at least off
the `fuel`.  A read that fails looks like the end of the file. -/
def logRead (flt : Faults) (name : Bytes) : Nat → Nat → Bytes → List LogEntry × Status
  | 0, _, _ => ([], .ok)
  | fuel + 1, n, s =>
    if s = [] then ([], .ok)
    else if flt (.readLog name n) then ([], .ok)
    else
      let chunk := s.take (fgetsLen LOG_LINE s)
      let line := (CStr.ofBuf chunk).bytes
      if line ≠ [] ∧ line.getLast? ≠ some 10 then
        -- `feof`: the reader ran into the end of the file
        if chunk.length < LOG_LINE - 1 ∧ (10 : UInt8) ∉ chunk then ([], .ok) else ([], .err)
      else
        match parseLogLine line.dropLast with
        | none => ([], .err)
        | some e =>
          let r := logRead flt name fuel (n + 1) (s.drop chunk.length)
          (e :: r.1, r.2)

/-- `cas_tree_log_read`: the entries handed out as long as the callback goes on, and the result then. -/
def casTreeLogRead (flt : Faults) (refs : Refs) (name : Bytes) : List LogEntry × Status :=
  if validRefName name = false then ([], .err)
  else
    match refFile refs (name ++ dotLog) with
    | none => ([], .enotfound)
    | some data => if flt (.openLog name) then ([], .enotfound) else logRead flt name data.length 0 data

/-! ## Committing -/

/-- The line a commit appends. -/
def logLine (root : Bytes) (timeS timeNs : Int) (comment : Bytes) : Bytes :=
  root ++ (32 :: (printInt timeS ++ (32 :: (printInt timeNs ++ (32 :: (comment ++ [10]))))))

/-- `open(lockpath, O_CREAT | O_WRONLY)` -/
def lockRef (name : Bytes) (dir : RefFiles) : RefFiles :=
  if (dir.lookup (name ++ dotLock)).isSome then dir else dir.insert (name ++ dotLock) []

/-- The line goes to the end of the log. -/
def appendLog (name line : Bytes) (dir : RefFiles) : RefFiles :=
  dir.insert (name ++ dotLog) ((dir.lookup (name ++ dotLog)).getD [] ++ line)

/-- A root that is there is kept as the previous one. -/
def keepRoot (name : Bytes) (dir : RefFiles) : RefFiles :=
  match dir.lookup (name ++ dotRoot) with
  | none => dir
  | some old => (dir.erase (name ++ dotPrev ++ dotTmp)).insert (name ++ dotPrev) old

/-- The new root is written beside the old one and takes its place. -/
def setRoot (name root : Bytes) (dir : RefFiles) : RefFiles :=
  (dir.erase (name ++ dotRoot ++ dotTmp)).insert (name ++ dotRoot) (root ++ [10])

/-- `cas_tree_ref_commit` when no call of it fails.  The files are taken by their contents. -/
def casTreeRefCommit (refs : Refs) (name root comment : Bytes) (timeS timeNs : Int) : Except Status Refs :=
  if validRefName name = false ∨ validHash root = false then .error .err
  else
    .ok (some (setRoot name root (keepRoot name
      (appendLog name (logLine root timeS timeNs comment) (lockRef name (refs.getD ∅))))))

/-- A ref's name and an address are all it asks for. -/
theorem casTreeRefCommit_valid (refs : Refs) (name root comment : Bytes) (timeS timeNs : Int)
    (hn : validRefName name = true) (hv : validHash root = true) :
    ∃ refs', casTreeRefCommit refs name root comment timeS timeNs = .ok refs' := by
  unfold casTreeRefCommit
  rw [if_neg (by simp [hn, hv])]
  exact ⟨_, rfl⟩

end Smolvfs
