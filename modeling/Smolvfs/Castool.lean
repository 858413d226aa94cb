import Smolvfs.RefRuns
import Smolvfs.VfsList
import Smolvfs.VfsRestore

/-!
# Editing a ref's tree from the command line

`cmd_import` and `cmd_rm` of `castool.c`, with `expand_args`, `read_file` and `basename_of`:
the tree of the ref is loaded, entries of it are taken out and put in, and the tree is
stored and committed.  What is outside of the depot is the `Host`; `refCommit` is
`cas_tree_ref_commit` with any of its calls failing.

A commit that fails leaves every root file as it was and one that succeeds makes its root
the ref's (`refCommit_cases`).
-/

namespace Smolvfs

open Octets Keyed

/-! ## A commit whose calls may fail -/

/-- The calls of `cas_tree_ref_commit`. -/
inductive CommitCall
  | mkdir | path | lock | flock | unlinkTmp | openLog | writeLog | unlinkPrev | link | renamePrev | openRoot | writeRoot
  | rename
  deriving DecidableEq

section
variable (fails : CommitCall → Bool)

/-- The old root file gets a second name, which becomes that of the previous root.  What the calls return is
not passed on. -/
def linkPrev (name : Bytes) (dir : RefFiles) : RefFiles :=
  match dir.lookup (name ++ dotRoot) with
  | none => dir
  | some old =>
    let dir := if fails .unlinkPrev then dir else dir.erase (prevTmp name)
    if fails .link || (dir.lookup (prevTmp name)).isSome then dir
    else if fails .renamePrev then dir.insert (prevTmp name) old
    else (dir.erase (prevTmp name)).insert (name ++ dotPrev) old

/-- `cas_tree_ref_commit`; a write to the log that fails leaves `kept` octets of the line. -/
def refCommit (kept : Nat) (refs : Refs) (name root comment : Bytes) (timeS timeNs : Int) : Status × Refs :=
  if validRefName name = false ∨ validHash root = false then (.err, refs)
  else if fails .mkdir then (.eio, refs)
  else
    let dir := refs.getD ∅
    if fails .path then (.err, some dir)
    else if fails .lock then (.eio, some dir)
    else
      let dir := lockRef name dir
      if fails .flock then (.eio, some dir)
      else
        let dir := if fails .unlinkTmp then dir else dir.erase (rootTmp name)
        let line := logLine root timeS timeNs comment
        if fails .openLog then (.eio, some dir)
        else if fails .writeLog then (.eio, some (appendLog name (line.take kept) dir))
        else
          let dir := linkPrev fails name (appendLog name line dir)
          if fails .openRoot then (.eio, some dir)
          else if fails .writeRoot || fails .rename then (.eio, some (dir.erase (rootTmp name)))
          else (.ok, some (setRoot name root dir))

end

/-! ## What a commit leaves -/

/-- Every root file is as it was. -/
def RootsKept (refs refs' : Refs) : Prop := ∀ name, refFile refs' (name ++ dotRoot) = refFile refs (name ++ dotRoot)

/-- The file is no ref's root. -/
def NotRoot (file : Bytes) : Prop := ∀ name, name ++ dotRoot ≠ file

/-- The last letter tells a root file. -/
theorem notRoot_of_last (name ext : Bytes) (hne : ext ≠ []) (hlast : ext.getLast? ≠ some 116) : NotRoot (name ++ ext) := by
  intro other heq
  have hroot : (other ++ dotRoot).getLast? = some 116 := by
    rw [List.getLast?_append_of_ne_nil _ (by decide)]
    decide
  rw [heq, List.getLast?_append_of_ne_nil _ hne] at hroot
  exact hlast hroot

section
variable (name : Bytes) {dir dir' : RefFiles}

theorem notRoot_rootTmp : NotRoot (rootTmp name) := notRoot_of_last _ dotTmp (by decide) (by decide)

theorem notRoot_prevTmp : NotRoot (prevTmp name) := notRoot_of_last _ dotTmp (by decide) (by decide)

theorem RootsKept.refl (refs : Refs) : RootsKept refs refs := fun _ => rfl

/-- The directory is made if it is not there. -/
theorem rootsKept_getD (refs : Refs) : RootsKept refs (some (refs.getD ∅)) := by
  intro name
  cases refs <;> rfl

theorem RootsKept.insert {refs : Refs} (h : RootsKept refs (some dir)) {file : Bytes} (hf : NotRoot file) (data : Bytes) :
    RootsKept refs (some (dir.insert file data)) := fun name => (AList.lookup_insert_ne (hf name)).trans (h name)

theorem RootsKept.erase {refs : Refs} (h : RootsKept refs (some dir)) {file : Bytes} (hf : NotRoot file) :
    RootsKept refs (some (dir.erase file)) := fun name => (AList.lookup_erase_ne (hf name)).trans (h name)

theorem RootsKept.lock {refs : Refs} (h : RootsKept refs (some dir)) : RootsKept refs (some (lockRef name dir)) := by
  unfold lockRef
  split
  · exact h
  · exact h.insert (notRoot_of_last name dotLock (by decide) (by decide)) []

theorem RootsKept.append {refs : Refs} (h : RootsKept refs (some dir)) (line : Bytes) :
    RootsKept refs (some (appendLog name line dir)) :=
  h.insert (notRoot_of_last name dotLog (by decide) (by decide)) _

theorem RootsKept.linkPrev {refs : Refs} (h : RootsKept refs (some dir)) (fails : CommitCall → Bool) :
    RootsKept refs (some (linkPrev fails name dir)) := by
  have hclear : RootsKept refs (some (if fails .unlinkPrev then dir else dir.erase (prevTmp name))) := by
    split
    · exact h
    · exact h.erase (notRoot_prevTmp name)
  unfold Smolvfs.linkPrev
  split
  · exact h
  · next old _ =>
    generalize (if fails .unlinkPrev then dir else dir.erase (prevTmp name)) = cleared at hclear ⊢
    simp only []
    split
    · exact hclear
    · split
      · exact hclear.insert (notRoot_prevTmp name) old
      · exact (hclear.erase (notRoot_prevTmp name)).insert (notRoot_of_last name dotPrev (by decide) (by decide)) old

/-- **A commit** that succeeds makes its root the ref's, and one that fails leaves every root file as it was. -/
theorem refCommit_cases (fails : CommitCall → Bool) (kept : Nat) (refs : Refs) (name root comment : Bytes)
    (timeS timeNs : Int) :
    let r := refCommit fails kept refs name root comment timeS timeNs
    (r.1 = .ok ∧ validRefName name = true ∧ validHash root = true ∧
      refFile r.2 (name ++ dotRoot) = some (root ++ [10])) ∨ (r.1 ≠ .ok ∧ RootsKept refs r.2) := by
  have hmade := rootsKept_getD refs
  have hlock := RootsKept.lock name hmade
  have hclear : RootsKept refs (some (if fails .unlinkTmp then lockRef name (refs.getD ∅)
      else (lockRef name (refs.getD ∅)).erase (rootTmp name))) := by
    split
    · exact hlock
    · exact hlock.erase (notRoot_rootTmp name)
  have hlinked := RootsKept.linkPrev name (hclear.append name (logLine root timeS timeNs comment)) fails
  unfold refCommit
  by_cases hok : validRefName name = false ∨ validHash root = false
  · rw [if_pos hok]
    exact .inr ⟨by simp, RootsKept.refl refs⟩
  · rw [if_neg hok]
    obtain ⟨hn, hv⟩ := not_or.mp hok
    split
    · exact .inr ⟨by simp, RootsKept.refl refs⟩
    · simp only []
      split
      · exact .inr ⟨by simp, hmade⟩
      · split
        · exact .inr ⟨by simp, hmade⟩
        · split
          · exact .inr ⟨by simp, hlock⟩
          · split
            · exact .inr ⟨by simp, hclear⟩
            · split
              · exact .inr ⟨by simp, hclear.append name _⟩
              · split
                · exact .inr ⟨by simp, hlinked⟩
                · split
                  · exact .inr ⟨by simp, hlinked.erase (notRoot_rootTmp name)⟩
                  · exact .inl ⟨rfl, by simpa using hn, by simpa using hv, AList.lookup_insert _⟩

/-- Two directories agree but for one file. -/
def AgreeOff (file : Bytes) (dir dir' : RefFiles) : Prop := ∀ other, other ≠ file → dir'.lookup other = dir.lookup other

theorem AgreeOff.insert {file : Bytes} (h : AgreeOff file dir dir') (at' data : Bytes) :
    AgreeOff file (dir.insert at' data) (dir'.insert at' data) := by
  intro other hne
  by_cases hat : other = at'
  · rw [hat, AList.lookup_insert, AList.lookup_insert]
  · rw [AList.lookup_insert_ne hat, AList.lookup_insert_ne hat, h other hne]

theorem AgreeOff.erase {file : Bytes} (h : AgreeOff file dir dir') (at' : Bytes) :
    AgreeOff file (dir.erase at') (dir'.erase at') := by
  intro other hne
  by_cases hat : other = at'
  · rw [hat, AList.lookup_erase, AList.lookup_erase]
  · rw [AList.lookup_erase_ne hat, AList.lookup_erase_ne hat, h other hne]

theorem lookup_erase_erase (dir : RefFiles) (file other : Bytes) :
    ((dir.erase file).erase file).lookup other = (dir.erase file).lookup other := by
  by_cases h : other = file
  · rw [h, AList.lookup_erase, AList.lookup_erase]
  · rw [AList.lookup_erase_ne h]

/-- The clearing before a commit's log line does not show once its root is set. -/
theorem agreeOff_cleared (root line : Bytes) (dir : RefFiles) (file : Bytes) :
    (setRoot name root (linkPrev (fun _ => false) name (appendLog name line (dir.erase (rootTmp name))))).lookup file =
      (setRoot name root (keepRoot name (appendLog name line dir))).lookup file := by
  have hlog : AgreeOff (rootTmp name) (appendLog name line dir) (appendLog name line (dir.erase (rootTmp name))) := by
    have herase : AgreeOff (rootTmp name) dir (dir.erase (rootTmp name)) := fun other hne => AList.lookup_erase_ne hne
    unfold appendLog
    rw [AList.lookup_erase_ne (aside_rootTmp.log)]
    exact herase.insert _ _
  have hkept : AgreeOff (rootTmp name) (keepRoot name (appendLog name line dir))
      (linkPrev (fun _ => false) name (appendLog name line (dir.erase (rootTmp name)))) := by
    have hroot := hlog (name ++ dotRoot) aside_rootTmp.root
    unfold linkPrev keepRoot
    rw [hroot]
    generalize (appendLog name line dir).lookup (name ++ dotRoot) = found
    cases found with
    | none => exact hlog
    | some old =>
      simp only [Bool.false_eq_true, if_false, Bool.false_or, AList.lookup_erase, Option.isSome_none]
      show AgreeOff _ (((appendLog name line dir).erase (prevTmp name)).insert (name ++ dotPrev) old) _
      exact AgreeOff.insert (fun other hne => (lookup_erase_erase _ _ other).trans (hlog.erase _ other hne)) _ old
  unfold setRoot
  by_cases hf : file = rootTmp name
  · have hne : file ≠ name ++ dotRoot := fun heq => aside_rootTmp.root (heq.symm.trans hf)
    rw [AList.lookup_insert_ne hne, AList.lookup_insert_ne hne, hf]
    show (AList.erase (rootTmp name) _).lookup (rootTmp name) = (AList.erase (rootTmp name) _).lookup (rootTmp name)
    rw [AList.lookup_erase, AList.lookup_erase]
  · exact (hkept.erase (rootTmp name)).insert (name ++ dotRoot) (root ++ [10]) file hf

/-- **When nothing fails** the commit is `casTreeRefCommit`. -/
theorem refCommit_nothing_fails (kept : Nat) (refs refs' : Refs) (root comment : Bytes) (timeS timeNs : Int)
    (h : casTreeRefCommit refs name root comment timeS timeNs = .ok refs') :
    let r := refCommit (fun _ => false) kept refs name root comment timeS timeNs
    r.1 = .ok ∧ ∀ file, refFile r.2 file = refFile refs' file := by
  unfold casTreeRefCommit at h
  split at h
  · cases h
  · next hok =>
    obtain rfl := Except.ok.inj h
    unfold refCommit
    rw [if_neg hok]
    exact ⟨rfl, fun file => agreeOff_cleared name root _ _ file⟩

end

/-! ## The host -/

/-- `struct stat` -/
structure FileStat where
  stMode : BitVec 32
  stUid : BitVec 32
  stGid : BitVec 32
  tvSec : BitVec 64
  tvNsec : BitVec 64

/-- What a command finds outside of the depot, and which of its calls fail. -/
structure Host where
  /-- `read_file` -/
  file : Bytes → Option Bytes
  /-- `stat` -/
  stat : Bytes → Option FileStat
  /-- what `fopen` gives to read for the path of an `@file` -/
  list : Bytes → Option Bytes
  stdin : Bytes
  /-- no memory for the argument -/
  noArg : Nat → Bool
  /-- no memory for the entry -/
  noEntry : Nat → Bool
  /-- the time at a put -/
  clock : Nat → Int
  timeS : Int
  timeNs : Int
  fails : CommitCall → Bool
  kept : Nat

section
variable (host : Host)

/-! ## Arguments -/

/-- `sizeof(line)` in `expand_at_file` -/
def ARG_LINE : Nat := 4096

/-- The lines of an `@file`, each without its newline, and none that is empty.  A line that does not fit the buffer
is taken in parts. -/
def argLines : Nat → Bytes → List CStr
  | 0, _ => []
  | fuel + 1, s =>
    if s = [] then []
    else
      let chunk := s.take (fgetsLen ARG_LINE s)
      let line := (CStr.ofBuf chunk).bytes
      let line := if line.getLast? = some 10 then line.dropLast else line
      (if line = [] then [] else [CStr.ofBuf line]) ++ argLines fuel (s.drop chunk.length)

/-- `arglist_add` -/
def arglistAdd (al : List CStr) (s : CStr) : Option (List CStr) := if host.noArg al.length then none else some (al ++ [s])

/-- `expand_at_file`, with what is left on standard input. -/
def expandAtFile (al : List CStr) (stdin path : Bytes) : Option (List CStr × Bytes) :=
  if path = [45] then ((argLines stdin.length stdin).foldlM (arglistAdd host) al).map fun al => (al, [])
  else
    match host.list path with
    | none => none
    | some data => ((argLines data.length data).foldlM (arglistAdd host) al).map fun al => (al, stdin)

/-- A turn of `expand_args`. -/
def expandArg (s : List CStr × Bytes) (arg : CStr) : Option (List CStr × Bytes) :=
  match arg.bytes with
  | 64 :: path => expandAtFile host s.1 s.2 path
  | _ => (arglistAdd host s.1 arg).map fun al => (al, s.2)

/-- `expand_args` -/
def expandArgs (argv : List CStr) : Option (List CStr) :=
  (argv.foldlM (expandArg host) ([], host.stdin)).map Prod.fst

/-- The ref of a command and its expanded arguments: there must be two arguments. -/
def refAndArgs (argv : List CStr) : Option (Bytes × List CStr) :=
  match argv with
  | refname :: arg :: rest => (expandArgs host (arg :: rest)).map fun al => (refname.bytes, al)
  | _ => none

/-- The leading `-z` of `cmd_import`. -/
def importPolicy (argv : List CStr) : Policy × List CStr :=
  match argv with
  | [] => (.never, [])
  | arg :: rest => if arg = lit ['-', 'z'] then (.guess, rest) else (.never, arg :: rest)

/-! ## Editing the directory -/

/-- The entry with the name is taken out, the last one put in its place. -/
def dropEntry (dir : Dir) (name : CStr) : Option Dir := takeOut Entry.name dir name

/-- `basename_of` of a path that is an argument. -/
def baseName (path : CStr) : CStr where
  bytes := basenameOf path.bytes
  noNul h := path.noNul (List.mem_reverse.mp ((List.takeWhile_sublist _).mem (List.mem_reverse.mp h)))

/-- An entry of `cmd_import`, under a name of any length. -/
def entryOf (path : CStr) (hash : Bytes) (name : CStr) : Entry :=
  match host.stat path.bytes with
  | none => ⟨CAS_TREE_S_IFREG ||| 0o644#32, 0, 0, 0, 0, hash, name⟩
  | some st =>
    ⟨CAS_TREE_S_IFREG ||| (st.stMode &&& 0o777#32), st.stUid, st.stGid, st.tvSec, st.tvNsec.setWidth 32, hash, name⟩

def CAS_CODEC_DEFLATE : Int := 90

section
variable (cs : Codecs) (cfg : CompressConfig) (flt : Faults)

/-- A turn of the loop of `cmd_import`: the file is read and stored, and takes the place of the entry of its name.
`snprintf` cuts the name to the entry's field. -/
def importFile (policy : Policy) (i : Nat) (path : CStr) (st : Store) (dir : Dir) : Store × Option Dir :=
  match host.file path.bytes with
  | none => (st, none)
  | some data =>
    match casPutObjectZ cs cfg flt st tBlob (casCodecPolicy policy CAS_CODEC_DEFLATE data) data (host.clock i) with
    | .error _ => (st, none)
    | .ok (st, bhash) =>
      let name := baseName path
      let dir := (dropEntry dir name).getD dir
      let e := entryOf host path bhash (CStr.ofBuf (name.bytes.take CAS_TREE_NAME_MAX))
      match casTreeDirAdd (host.noEntry i) dir e with
      | .error _ => (st, none)
      | .ok dir => (st, some dir)

/-- The loop of `cmd_import`. -/
def importFiles (policy : Policy) : Nat → List CStr → Store → Dir → Store × Option Dir
  | _, [], st, dir => (st, some dir)
  | i, path :: rest, st, dir =>
    match importFile host cs cfg flt policy i path st dir with
    | (st, none) => (st, none)
    | (st, some dir) => importFiles policy (i + 1) rest st dir

/-- The loop of `cmd_rm`, with the number of entries taken out. -/
def rmNames : List CStr → Dir → Nat → Dir × Nat
  | [], dir, removed => (dir, removed)
  | name :: rest, dir, removed =>
    match dropEntry dir name with
    | none => rmNames rest dir removed
    | some dir => rmNames rest dir (removed + 1)

/-! ## The commands -/

/-- The end of both: the exit status, with the depot. -/
def storeAndCommit (ct : CasTree) (refname : Bytes) (dir : Dir) (i : Nat) (comment : Bytes) : Nat × CasTree :=
  match casTreeStore flt ct.store false dir (host.clock i) with
  | .error _ => (1, ct)
  | .ok (st, root) =>
    match refCommit host.fails host.kept ct.refs refname root comment host.timeS host.timeNs with
    | (.ok, refs) => (0, ⟨st, refs⟩)
    | (_, refs) => (1, ⟨st, refs⟩)

/-- `cmd_import`.  Whatever `cas_tree_ref_read` fails with, the directory begins empty then. -/
def cmdImport (ct : CasTree) (argv : List CStr) : Nat × CasTree :=
  match refAndArgs host (importPolicy argv).2 with
  | none => (1, ct)
  | some (refname, al) =>
    if al = [] then (1, ct)
    else
      let loaded : Except Status Dir :=
        match casTreeRefRead flt ct.refs refname with
        | .ok hash => casTreeLoad cs flt ct.store hash
        | .error _ => .ok []
      match loaded with
      | .error _ => (1, ct)
      | .ok dir =>
        match importFiles host cs cfg flt (importPolicy argv).1 0 al ct.store dir with
        | (st, none) => (1, ⟨st, ct.refs⟩)
        | (st, some dir) =>
          storeAndCommit host flt ⟨st, ct.refs⟩ refname dir al.length (lit ['i', 'm', 'p', 'o', 'r', 't']).bytes

/-- `cmd_rm` -/
def cmdRm (ct : CasTree) (argv : List CStr) : Nat × CasTree :=
  match refAndArgs host argv with
  | none => (1, ct)
  | some (refname, al) =>
    match casTreeRefRead flt ct.refs refname with
    | .error _ => (1, ct)
    | .ok hash =>
      match casTreeLoad cs flt ct.store hash with
      | .error _ => (1, ct)
      | .ok dir =>
        let r := rmNames al dir 0
        if r.2 = 0 then (1, ct) else storeAndCommit host flt ct refname r.1 0 (lit ['r', 'm']).bytes

end

end

end Smolvfs
