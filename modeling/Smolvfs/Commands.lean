import Smolvfs.CastoolEdits
import Smolvfs.Import
import Smolvfs.LogPrune
import Smolvfs.Reclaim

/-!
# The other commands on a depot

`cmd_pack`, `cmd_gc`, `cmd_prune`, `cmd_import_pack` and `cmd_fsck` of `castool.c`, with
what they print, and `main` for these and for the two commands that edit a ref's tree:
every run of the program opens the depot anew.

`EditCmd.run_edited`: both editing commands come to a directory, which is stored and
committed.
-/

namespace Smolvfs

open Octets Numeral

/-! ## What is printed -/

/-- The octets of a text. -/
def text (s : String) : Bytes := s.toList.map fun c => UInt8.ofNat c.toNat

/-- A message begins with the program's name. -/
def progSays (parts : List Bytes) : Bytes := text "castool: " ++ parts.flatten ++ [10]

/-- `cas_strerror` -/
def casStrerror : Status → Bytes
  | .ok => text "success"
  | .err => text "generic error"
  | .enotfound => text "not found"
  | .enomem => text "out of memory"
  | .eio => text "I/O error"
  | .etype => text "type mismatch"

def usageOf (command : String) : Bytes := text "usage: castool " ++ text command ++ [10]

/-- The exit status of a command, and what it prints, all of it to standard error. -/
structure CmdOutcome where
  status : Nat
  err : Bytes

def complains (err : Bytes) : CmdOutcome := ⟨1, err⟩

def succeeds (err : Bytes) : CmdOutcome := ⟨0, err⟩

def noCodecWarning : Bytes :=
  progSays [text "warning: no compression codec compiled in (build with MINIZ=1); packing uncompressed"]

/-- A plural's ending. -/
def pluralEnd (n : Nat) (one many : String) : Bytes := if n = 1 then text one else text many

/-! ## The host -/

/-- What these commands find outside of the depot besides. -/
structure ToolHost extends Host where
  /-- what `cas_pack_open` maps for a path -/
  bundle : Bytes → Option Bytes
  /-- the time of the collection -/
  now : Int
  /-- the time at which an address is put -/
  putTime : Bytes → Int
  basedir : Bytes
  prune : PruneFaults

section
variable (host : ToolHost) (cs : Codecs) (cfg : CompressConfig) (flt : Faults) (ct : CasTree)

/-! ## pack -/

/-- The flags of `cmd_pack`: whether to compress, and whether to prune. -/
def packFlags : List CStr → Option (Bool × Bool)
  | [] => some (false, false)
  | arg :: rest =>
    if arg = lit ['-', 'z'] then (packFlags rest).map fun f => (true, f.2)
    else if arg = lit ['-', '-', 'p', 'r', 'u', 'n', 'e'] then (packFlags rest).map fun f => (f.1, true)
    else none

/-- `cmd_pack` -/
def cmdPack (argv : List CStr) : CmdOutcome × CasTree :=
  match packFlags argv with
  | none => (complains (usageOf "pack [-z] [--prune]"), ct)
  | some (compress, prune) =>
    let didCompress := compress && casCodecCanEncode cs CAS_CODEC_DEFLATE
    let warning := if compress && !didCompress then noCodecWarning else []
    let created := if compress then casPackCreateZ cs flt ct.store packDat .guess CAS_CODEC_DEFLATE
      else casPackCreate cs flt ct.store packDat
    match created with
    | (.ok, st) =>
      let packed := warning ++ text "pack: ok" ++ (if didCompress then text " (compressed)" else []) ++ [10]
      if prune then
        let r := casPackReclaim cs flt st packDat
        (succeeds (packed ++ text "prune: reclaimed " ++ printNat 10 r.2 ++ text " loose object" ++
          pluralEnd r.2 "" "s" ++ [10]), ⟨r.1, ct.refs⟩)
      else (succeeds packed, ⟨st, ct.refs⟩)
    | (rc, st) => (complains (warning ++ progSays [text "pack failed: ", casStrerror rc]), ⟨st, ct.refs⟩)

/-! ## gc -/

structure GcFlags where
  grace : Int
  pack : Bool
  compress : Bool

/-- The flags of `cmd_gc`. -/
def gcFlags (f : GcFlags) : List CStr → Option GcFlags
  | [] => some f
  | arg :: rest =>
    if arg = lit ['-', '-', 'n', 'o', 'w'] then gcFlags { f with grace := 0 } rest
    else if arg = lit ['-', '-', 'p', 'a', 'c', 'k'] then gcFlags { f with pack := true } rest
    else if arg = lit ['-', 'z'] then gcFlags { f with compress := true } rest
    else none

/-- `cmd_gc`, whose reporter never stops a collection; the lines of the reporter are left out. -/
def cmdGc (argv : List CStr) : CmdOutcome × CasTree :=
  match gcFlags ⟨3600, false, false⟩ argv with
  | none => (complains (usageOf "gc [--now] [--pack] [-z]"), ct)
  | some f =>
    if f.pack = false && f.compress then (complains (progSays [text "-z only applies with --pack"]), ct)
    else
      let removedLine := fun removed : Nat =>
        text "removed " ++ printNat 10 removed ++ text " object" ++ pluralEnd removed "" "s" ++ [10]
      if f.pack then
        let didCompress := f.compress && casCodecCanEncode cs CAS_CODEC_DEFLATE
        let warning := if f.compress && !didCompress then noCodecWarning else []
        match casTreeGcPack cs flt ct f.grace host.now (if didCompress then .guess else .never)
          (if didCompress then CAS_CODEC_DEFLATE else CAS_CODEC_NONE) fun _ _ => false with
        | (.ok, st, removed, reclaimed) =>
          (succeeds (warning ++ text "packed, reclaimed " ++ printNat 10 reclaimed ++ text " loose object" ++
            pluralEnd reclaimed "" "s" ++ 10 :: removedLine removed), ⟨st, ct.refs⟩)
        | (_, st, _, _) => (complains (warning ++ progSays [text "gc failed"]), ⟨st, ct.refs⟩)
      else
        match casTreeGc cs flt ct f.grace host.now fun _ _ => false with
        | (.ok, st, removed) => (succeeds (removedLine removed), ⟨st, ct.refs⟩)
        | (_, st, _) => (complains (progSays [text "gc failed"]), ⟨st, ct.refs⟩)

/-! ## prune -/

/-- `atoi` -/
def atoi (s : CStr) : Int :=
  match scanInt 10 s.bytes with
  | none => 0
  | some (v, _) => (BitVec.ofInt 32 (strtol v)).toInt

/-- `cmd_prune` -/
def cmdPrune (argv : List CStr) : CmdOutcome × CasTree :=
  match argv with
  | ref :: count :: _ =>
    let keep := atoi count
    if keep < 1 then (complains (progSays [text "keep-count must be at least 1"]), ct)
    else
      let r := casTreeLogTruncate host.prune host.basedir ct.refs ref.bytes keep 0
      match r.status with
      | .ok =>
        let removed := r.removed.getD 0
        (succeeds (text "pruned " ++ printNat 10 removed ++ text " log entr" ++ pluralEnd removed "y" "ies" ++ [10]),
          ⟨ct.store, r.refs⟩)
      | .enotfound => (complains (progSays [text "ref '", ref.bytes, text "' has no log"]), ⟨ct.store, r.refs⟩)
      | _ => (complains (progSays [text "prune failed"]), ⟨ct.store, r.refs⟩)
  | _ => (complains (usageOf "prune <ref> <keep-count>"), ct)

/-! ## import-pack -/

/-- The arguments of `cmd_import_pack`: the bundle, and the ref and the root to commit. -/
def importPackArgs : List CStr → Option (CStr × Option (CStr × CStr))
  | [packfile] => some (packfile, none)
  | [packfile, ref, roothash] => some (packfile, some (ref, roothash))
  | _ => none

/-- The comment of the commit of `cmd_import_pack`. -/
def importComment : CStr := lit ['i', 'm', 'p', 'o', 'r', 't', 'e', 'd', ' ', 'b', 'u', 'n', 'd', 'l', 'e']

/-- The end of `cmd_import_pack`: the root is committed, if it is there. -/
def commitBundle (ct : CasTree) (ref roothash : CStr) (counted : Bytes) : CmdOutcome × CasTree :=
  if casExists ct.store roothash.bytes = false then
    (complains (counted ++ progSays [text "root hash '", roothash.bytes, text "' not present in bundle"]), ct)
  else
    match refCommit host.fails host.kept ct.refs ref.bytes roothash.bytes importComment.bytes host.timeS
      host.timeNs with
    | (.ok, refs) =>
      (succeeds (counted ++ text "import-pack: ref '" ++ ref.bytes ++ text "' -> " ++ roothash.bytes ++ [10]),
        ⟨ct.store, refs⟩)
    | (rc, refs) => (complains (counted ++ progSays [text "ref commit failed: ", casStrerror rc]), ⟨ct.store, refs⟩)

/-- `cmd_import_pack` -/
def cmdImportPack (argv : List CStr) : CmdOutcome × CasTree :=
  let policy := (importPolicy argv).1
  match importPackArgs (importPolicy argv).2 with
  | none => (complains (usageOf "import-pack [-z] <pack-file> [<ref> <root-hash>]"), ct)
  | some (packfile, commit) =>
    match casPackOpen false (host.bundle packfile.bytes) with
    | none => (complains (progSays [text "cannot open bundle '", packfile.bytes, text "'"]), ct)
    | some pack =>
      match casPackImport cs cfg flt policy CAS_CODEC_DEFLATE (some (treeVerifier flt)) host.putTime pack ct.store with
      | (st, .error rc) => (complains (progSays [text "import failed: ", casStrerror rc]), ⟨st, ct.refs⟩)
      | (st, .ok (total, stored)) =>
        let counted := text "import-pack: " ++ printNat 10 total ++ text " objects, " ++ printNat 10 stored ++
          text " new" ++ [10]
        match commit with
        | none => (succeeds counted, ⟨st, ct.refs⟩)
        | some (ref, roothash) => commitBundle host ⟨st, ct.refs⟩ ref roothash counted

/-! ## fsck -/

/-- The texts of `fsck_reporter`. -/
def fsckMessage : TreeFsck → Bytes
  | .missing => text "missing"
  | .corrupt => text "corrupt"
  | .badTree => text "bad tree"
  | .nocodec => text "skipped (no codec)"
  | .foreign => text "skipped (not a directory)"

/-- A line of `fsck_reporter`. -/
def fsckLine (r : FsckReport) : Bytes := fsckMessage r.status ++ text ": " ++ r.hash ++ 32 :: (r.path ++ [10])

/-- `cmd_fsck`; none is out of fuel. -/
def cmdFsck (fuel : Nat) : Option CmdOutcome :=
  (casTreeFsck cs flt (fun _ => false) fuel ct).map fun (rc, reports) =>
    let lines := reports.flatMap fsckLine
    if rc = .ok then succeeds (lines ++ text "fsck: clean" ++ [10])
    else complains (lines ++ text "fsck: errors found" ++ [10])

/-! ## main -/

/-- The commands that change a depot, but for `publish`. -/
inductive Command
  | edit (cmd : EditCmd)
  | gc | prune | pack | importPack

/-- Their names in `commands[]`. -/
def commands : List (CStr × Command) :=
  [(lit ['i', 'm', 'p', 'o', 'r', 't'], .edit .importing), (lit ['r', 'm'], .edit .removing), (lit ['g', 'c'], .gc),
    (lit ['p', 'r', 'u', 'n', 'e'], .prune), (lit ['p', 'a', 'c', 'k'], .pack),
    (lit ['i', 'm', 'p', 'o', 'r', 't', '-', 'p', 'a', 'c', 'k'], .importPack)]

/-- The exit status of a command, and the depot. -/
def Command.run (c : Command) (argv : List CStr) : Nat × CasTree :=
  match c with
  | .edit cmd => cmd.run host.toHost cs cfg flt ct argv
  | .gc => (cmdGc host cs flt ct argv).map CmdOutcome.status id
  | .prune => (cmdPrune host ct argv).map CmdOutcome.status id
  | .pack => (cmdPack cs flt ct argv).map CmdOutcome.status id
  | .importPack => (cmdImportPack host cs cfg flt ct argv).map CmdOutcome.status id

/-- `cas_new` on a depot that is there: the pack is opened. -/
def openDepot : CasTree := ⟨casReloadPack flt ct.store, ct.refs⟩

/-- `main` after its options, of these commands: the depot is opened and the command run. -/
def castool (argv : List CStr) : Nat × CasTree :=
  match argv with
  | [] => (1, ct)
  | name :: args =>
    match commands.lookup name with
    | none => (1, openDepot flt ct)
    | some c => c.run host cs cfg flt (openDepot flt ct) args

end

/-! ## The two commands that edit -/

/-- What is to be stored and committed. -/
structure Edited where
  refname : Bytes
  dir : Dir
  turns : Nat

/-- The comment of a command's commit. -/
def EditCmd.comment : EditCmd → CStr
  | .importing => lit ['i', 'm', 'p', 'o', 'r', 't']
  | .removing => lit ['r', 'm']

section
variable (host : Host) (cs : Codecs) (cfg : CompressConfig) (flt : Faults) (ct : CasTree)

/-- The tree that an import begins with. -/
def importBegins (refname : Bytes) : Except Status Dir :=
  match casTreeRefRead flt ct.refs refname with
  | .ok hash => casTreeLoad cs flt ct.store hash
  | .error _ => .ok []

/-- An editing command up to where it stores the tree. -/
def EditCmd.edited (cmd : EditCmd) (argv : List CStr) : Store × Option Edited :=
  match cmd with
  | .importing =>
    match refAndArgs host (importPolicy argv).2 with
    | none => (ct.store, none)
    | some (refname, al) =>
      if al = [] then (ct.store, none)
      else
        match importBegins cs flt ct refname with
        | .error _ => (ct.store, none)
        | .ok dir =>
          let r := importFiles host cs cfg flt (importPolicy argv).1 0 al ct.store dir
          (r.1, r.2.map fun dir => ⟨refname, dir, al.length⟩)
  | .removing =>
    match refAndArgs host argv with
    | none => (ct.store, none)
    | some (refname, al) =>
      match casTreeRefRead flt ct.refs refname with
      | .error _ => (ct.store, none)
      | .ok hash =>
        match casTreeLoad cs flt ct.store hash with
        | .error _ => (ct.store, none)
        | .ok dir =>
          let r := rmNames al dir 0
          (ct.store, if r.2 = 0 then none else some ⟨refname, r.1, 0⟩)

/-- What is edited is stored and committed. -/
def commitEdited (comment : Bytes) (r : Store × Option Edited) : Nat × CasTree :=
  match r with
  | (st, none) => (1, ⟨st, ct.refs⟩)
  | (st, some e) => storeAndCommit host flt ⟨st, ct.refs⟩ e.refname e.dir e.turns comment

/-- **Both commands** store and commit what they come to. -/
theorem EditCmd.run_edited (cmd : EditCmd) (argv : List CStr) :
    cmd.run host cs cfg flt ct argv =
      commitEdited host flt ct cmd.comment.bytes (cmd.edited host cs cfg flt ct argv) := by
  cases cmd with
  | importing =>
    simp only [EditCmd.run, EditCmd.edited, cmdImport, importBegins]
    cases refAndArgs host (importPolicy argv).2 with
    | none => rfl
    | some target =>
      obtain ⟨refname, al⟩ := target
      simp only []
      by_cases hnil : al = []
      · simp only [hnil, if_true]
        rfl
      · simp only [hnil, if_false]
        cases casTreeRefRead flt ct.refs refname with
        | error rc =>
          simp only []
          generalize importFiles host cs cfg flt (importPolicy argv).1 0 al ct.store [] = r
          obtain ⟨st, out⟩ := r
          cases out <;> rfl
        | ok hash =>
          simp only []
          cases casTreeLoad cs flt ct.store hash with
          | error rc => rfl
          | ok dir =>
            simp only []
            generalize importFiles host cs cfg flt (importPolicy argv).1 0 al ct.store dir = r
            obtain ⟨st, out⟩ := r
            cases out <;> rfl
  | removing =>
    simp only [EditCmd.run, EditCmd.edited, cmdRm]
    cases refAndArgs host argv with
    | none => rfl
    | some target =>
      obtain ⟨refname, al⟩ := target
      simp only []
      cases casTreeRefRead flt ct.refs refname with
      | error rc => rfl
      | ok hash =>
        simp only []
        cases casTreeLoad cs flt ct.store hash with
        | error rc => rfl
        | ok dir =>
          simp only []
          by_cases hnone : (rmNames al dir 0).2 = 0
          · simp only [hnone, if_true]
            rfl
          · simp only [hnone, if_false]
            rfl

end

end Smolvfs
