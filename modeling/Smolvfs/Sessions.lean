import Smolvfs.Commands
import Smolvfs.RefLog
import Smolvfs.TreeHeld

/-!
# What commands do to a depot that is sound

A depot is sound when all it holds is of the session's objects, and every version that a
log lists is held with all that is below it (`SoundDepot`).  An edit adds a version, a
truncation takes versions away, and a collection, a pack and a bundle leave every version
as it is.
-/

namespace Smolvfs

open Octets Keyed WriteOnce

/-! ## Entries whose objects are held -/

/-- An entry with a valid name, of what is held. -/
structure EntryHeld (m : Holdings) (e : Entry) : Prop where
  lower : LowerHash e.hash
  name : validName e.name = true
  dirs : e.isDir = true → TreeHeld m e.hash
  files : e.isDir = false → BlobHeld m e.hash

def EntriesHeld (m : Holdings) (dir : Dir) : Prop := ∀ e ∈ dir, EntryHeld m e

theorem EntryHeld.printable {m : Holdings} {e : Entry} (h : EntryHeld m e) : e.Printable := ⟨h.lower, h.name⟩

theorem EntriesHeld.mono {m m' : Holdings} (hk : Kept m m') {dir : Dir} (h : EntriesHeld m dir) : EntriesHeld m' dir :=
  fun e he =>
    ⟨(h e he).lower, (h e he).name, fun hd => ((h e he).dirs hd).mono hk, fun hd => ((h e he).files hd).mono hk⟩

theorem DirHeld.tree {m : Holdings} {hash : Bytes} {dir : Dir} (hd : DirHeld m hash dir) (h : EntriesHeld m dir) :
    TreeHeld m hash :=
  .mk hash dir hd (fun e he => (h e he).lower) (fun e he => (h e he).dirs) fun e he => (h e he).files

theorem TreeHeld.entriesHeld {cs : Codecs} {st : Store} {m : Holdings} (h : HoldsIn cs st m) {hash : Bytes}
    (ht : TreeHeld m hash) {dir : Dir} (hd : DirHeld m hash dir) : EntriesHeld m dir := by
  have hnames := (casTreeLoad_names (hd.loads h)).2
  intro e he
  obtain ⟨hlow, hdirs, hfiles⟩ := ht.entries hd e he
  exact ⟨hlow, hnames e he, hdirs, hfiles⟩

/-! ## What a session stores -/

/-- The objects of a session: no two collide, and each is within the reader's limits in every form it may be
stored in. -/
structure ObjectsFit (cs : Codecs) (cfg : CompressConfig) (U : Object → Prop) : Prop where
  apart : Apart U
  raw : ∀ obj, U obj → RawFits obj.1 obj.2
  encoded : ∀ obj, U obj → ∀ codec payload, compressWins cs cfg false codec obj.2 = some payload →
    EncodedFits obj.1 obj.2 payload
  packed : ∀ obj, U obj → ∀ use payload, packEncode cs false use obj.2 = some payload → WithinCaps obj.2 payload

/-- A depot with what it holds, all of it of the session's objects. -/
structure Stocked (cs : Codecs) (U : Object → Prop) (st : Store) (m : Holdings) : Prop where
  holds : Holds cs st m
  known : HeldOf U m

theorem casPutObject_hashed {flt : Faults} {st st' : Store} {type : CStr} {data hash : Bytes} {now : Int}
    (h : casPutObject flt st type data now = .ok (st', hash)) : casHashObject type data = .ok hash := by
  have haddr := (casPutObject_putAt [] h).1
  cases hh : casHashObject type data with
  | ok addr => rw [haddr, casHashObject_ok hh]
  | error rc =>
    unfold casHashObject at hh
    unfold casPutObject at h
    cases hf : formatHeader type data.length with
    | some hdr =>
      rw [hf] at hh
      cases hh
    | none =>
      rw [hf] at h
      cases h

theorem entryOf_hash (host : Host) (path : CStr) (hash : Bytes) (name : CStr) :
    (entryOf host path hash name).hash = hash := by
  unfold entryOf
  split <;> rfl

/-- An import makes entries of files. -/
theorem entryOf_isDir (host : Host) (path : CStr) (hash : Bytes) (name : CStr) :
    (entryOf host path hash name).isDir = false := by
  have hreg : (CAS_TREE_S_IFREG &&& CAS_TREE_S_IFMT == CAS_TREE_S_IFDIR) = false := by decide
  have hmode : (0o644#32 : BitVec 32) = 0o644#32 &&& 0o777#32 := by decide
  unfold entryOf Entry.isDir
  split
  · rw [hmode, type_of_mode]
    exact hreg
  · rw [type_of_mode]
    exact hreg

section
variable {cs : Codecs} {cfg : CompressConfig} {U : Object → Prop} (hU : ObjectsFit cs cfg U)
include hU

theorem ObjectsFit.putZ {type : CStr} {data : Bytes} (hobj : U (type, data)) (codec : Int) (hash : Bytes) :
    (Writer.putZ cfg codec).Fits cs noFaults type data hash := by
  unfold Writer.Fits
  simp only [show noFaults (.scratchObj hash) = false from rfl]
  cases hw : compressWins cs cfg false codec data with
  | none => exact hU.raw _ hobj
  | some payload => exact hU.encoded _ hobj codec payload hw

theorem ObjectsFit.bundle {policy : Policy} {codec : Int} {bundle : Pack}
    (hobjs : ∀ e ∈ bundleObjects cs bundle (casPackHashes bundle), Admitted e.2 e.1 → U e.2) :
    BundleFits cs cfg noFaults policy codec bundle := by
  intro hash hmem type data hlook had
  have hobj : U (type, data) := by
    refine hobjs (hash, type, data) (List.mem_filterMap.mpr ⟨hash, hmem, ?_⟩) had
    rw [hlook]
  unfold importWriter
  split
  · exact hU.raw _ hobj
  · exact hU.putZ hobj _ hash

theorem ObjectsFit.pack {m : Holdings} (hm : HeldOf U m) (policy : Policy) (codec : Int) : PackFits cs policy codec m :=
  fun hash obj payload hobj henc => hU.packed obj (hm.known hash obj hobj) _ payload henc

variable (hr : cs.RoundTrips) {st : Store} {m : Holdings} (h : Stocked cs U st m)
include hr h

/-! ## The loops of the editing commands -/

/-- A turn of `cmd_import`. -/
theorem importFile_stocked {host : Host} {policy : Policy} {i : Nat} {path : CStr} {dir : Dir} (hd : EntriesHeld m dir)
    (hdata : ∀ data, host.file path.bytes = some data → U (tBlob, data)) :
    let r := importFile host cs cfg noFaults policy i path st dir
    ∃ m', Kept m m' ∧ Stocked cs U r.1 m' ∧ ∀ dir', r.2 = some dir' → EntriesHeld m' dir' := by
  unfold importFile
  cases hfile : host.file path.bytes with
  | none => exact ⟨m, Kept.refl m, h, fun _ hdir => by cases hdir⟩
  | some data =>
    simp only []
    cases hput : casPutObjectZ cs cfg noFaults st tBlob (casCodecPolicy policy CAS_CODEC_DEFLATE data) data
      (host.clock i) with
    | error rc => exact ⟨m, Kept.refl m, h, fun _ hdir => by cases hdir⟩
    | ok out =>
      obtain ⟨st', bhash⟩ := out
      have hobj := hdata data hfile
      have hhash := (casPutObjectZ_there cs hput).1
      have hlow : LowerHash bhash := casHashObject_ok hhash ▸ lowerHash_toHex _ (length_digest2 _ _)
      have had := admitted_blob hhash
      have hst : Stocked cs U st' (put m bhash (tBlob, data)) :=
        ⟨h.holds.put hr (w := .putZ cfg _) hput hlow fun _ => hU.putZ hobj _ bhash, h.known.put hobj had⟩
      -- nothing that collides with the contents is at their address
      obtain ⟨held, hheld, hcanon⟩ := h.known.put_canonical hobj had hU.apart
      have hplain : canonical (tBlob, data) = (tBlob, data) := canonical_plain (show tBlob ≠ tHtree by decide)
      obtain rfl := eq_of_canonical_blob (hcanon.trans hplain)
      refine ⟨_, kept_put m bhash (tBlob, data), ?_⟩
      simp only []
      cases hadd : casTreeDirAdd (host.noEntry i) ((dropEntry dir (baseName path)).getD dir)
        (entryOf host path bhash (CStr.ofBuf ((baseName path).bytes.take CAS_TREE_NAME_MAX))) with
      | error rc => exact ⟨hst, fun _ hdir => by cases hdir⟩
      | ok out =>
        refine ⟨hst, fun dir' hdir => ?_⟩
        obtain rfl := Option.some.inj hdir
        obtain ⟨hname, rfl⟩ := casTreeDirAdd_spec _ _ out _ hadd
        intro e he
        rcases List.mem_append.mp he with he | he
        · refine hd.mono (kept_put m bhash (tBlob, data)) e ?_
          unfold dropEntry at he
          cases ht : takeOut Entry.name dir (baseName path) with
          | none => rwa [ht] at he
          | some rest =>
            rw [ht] at he
            exact mem_of_takeOut ht he
        · obtain rfl := List.mem_singleton.mp he
          refine ⟨(entryOf_hash host path bhash _).symm ▸ hlow, hname, fun hdir => ?_, fun _ => ⟨data, ?_⟩⟩
          · rw [entryOf_isDir] at hdir
            cases hdir
          · rw [entryOf_hash]
            exact hheld

/-- The loop of `cmd_import`. -/
theorem importFiles_stocked {host : Host} {policy : Policy} (al : List CStr) (i : Nat) {dir : Dir}
    (hd : EntriesHeld m dir)
    (hdata : ∀ path ∈ al, ∀ data, host.file path.bytes = some data → U (tBlob, data)) :
    let r := importFiles host cs cfg noFaults policy i al st dir
    ∃ m', Kept m m' ∧ Stocked cs U r.1 m' ∧ ∀ dir', r.2 = some dir' → EntriesHeld m' dir' := by
  induction al generalizing i st m dir with
  | nil =>
    refine ⟨m, Kept.refl m, h, fun dir' hdir => ?_⟩
    obtain rfl := Option.some.inj hdir
    exact hd
  | cons path al ih =>
    have hturn := @importFile_stocked cs cfg U hU hr st m h host policy i path dir hd (hdata path (by simp))
    obtain ⟨m1, hk, hst, hdir⟩ := hturn
    unfold importFiles
    generalize importFile host cs cfg noFaults policy i path st dir = r at hst hdir ⊢
    obtain ⟨st1, out⟩ := r
    cases out with
    | none => exact ⟨m1, hk, hst, fun _ hdir => by cases hdir⟩
    | some dir1 =>
      obtain ⟨m2, hk2, hst2, hdir2⟩ := ih hst (i + 1) (hdir dir1 rfl) fun q hq => hdata q (by simp [hq])
      exact ⟨m2, hk.trans hk2, hst2, hdir2⟩

omit hU hr h in
/-- The loop of `cmd_rm`. -/
theorem rmNames_held {m : Holdings} (al : List CStr) (dir : Dir) (removed : Nat) (hd : EntriesHeld m dir) :
    EntriesHeld m (rmNames al dir removed).1 := by
  induction al generalizing dir removed with
  | nil => exact hd
  | cons name al ih =>
    unfold rmNames dropEntry
    cases ht : takeOut Entry.name dir name with
    | none => exact ih dir removed hd
    | some rest => exact ih rest (removed + 1) fun e he => hd e (mem_of_takeOut ht he)

/-- **An edit**, up to where its tree is stored, comes to entries that are held. -/
theorem edited_stocked {host : Host} {refs : Refs} (cmd : EditCmd) (argv : List CStr)
    (hroots : ∀ ref hash, casTreeRefRead noFaults refs ref = .ok hash → TreeHeld m hash)
    (hdata : ∀ refname al, cmd.target host argv = some (refname, al) → ∀ path ∈ cmd.files al, ∀ data,
      host.file path.bytes = some data → U (tBlob, data)) :
    let r := cmd.edited host cs cfg noFaults ⟨st, refs⟩ argv
    ∃ m', Kept m m' ∧ Stocked cs U r.1 m' ∧ ∀ e, r.2 = some e → EntriesHeld m' e.dir := by
  have hloaded : ∀ ref hash dir, casTreeRefRead noFaults refs ref = .ok hash →
      casTreeLoad cs noFaults st hash = .ok dir → EntriesHeld m dir := by
    intro ref hash dir hread hload
    have htree := hroots ref hash hread
    obtain ⟨dir', hdir⟩ := htree.dir
    obtain rfl := Except.ok.inj ((hdir.loads h.holds.handle).symm.trans hload)
    exact htree.entriesHeld h.holds.handle hdir
  have hsame : ∃ m', Kept m m' ∧ Stocked cs U st m' ∧ ∀ e, (none : Option Edited) = some e → EntriesHeld m' e.dir :=
    ⟨m, Kept.refl m, h, fun _ he => by cases he⟩
  cases cmd with
  | importing =>
    simp only [EditCmd.edited]
    cases htarget : refAndArgs host (importPolicy argv).2 with
    | none => exact hsame
    | some target =>
      obtain ⟨refname, al⟩ := target
      simp only []
      by_cases hnil : al = []
      · rw [if_pos hnil]
        exact hsame
      · rw [if_neg hnil]
        have hbegin : ∀ dir, importBegins cs noFaults ⟨st, refs⟩ refname = .ok dir → EntriesHeld m dir := by
          intro dir hb
          unfold importBegins at hb
          split at hb
          · next hash hread => exact hloaded refname hash dir hread hb
          · obtain rfl := Except.ok.inj hb
            intro e he
            cases he
        cases hb : importBegins cs noFaults ⟨st, refs⟩ refname with
        | error rc => exact hsame
        | ok dir =>
          have hloop := @importFiles_stocked cs cfg U hU hr st m h host (importPolicy argv).1 al 0 dir (hbegin dir hb)
            (hdata refname al htarget)
          obtain ⟨m', hk, hst, hdir⟩ := hloop
          refine ⟨m', hk, hst, fun e he => ?_⟩
          obtain ⟨dir', hdir', rfl⟩ := Option.map_eq_some_iff.mp he
          exact hdir dir' hdir'
  | removing =>
    simp only [EditCmd.edited]
    cases htarget : refAndArgs host argv with
    | none => exact hsame
    | some target =>
      obtain ⟨refname, al⟩ := target
      simp only []
      cases hread : casTreeRefRead noFaults refs refname with
      | error rc => exact hsame
      | ok hash =>
        simp only []
        cases hload : casTreeLoad cs noFaults st hash with
        | error rc => exact hsame
        | ok dir =>
          refine ⟨m, Kept.refl m, h, fun e he => ?_⟩
          simp only [] at he
          split at he
          · cases he
          · obtain rfl := Option.some.inj he
            exact rmNames_held al dir 0 (hloaded refname hash dir hread hload)

/-- **A tree is stored**: it is held then, with all that is below it. -/
theorem casTreeStore_stocked {st' : Store} {dir : Dir} {now : Int} {root : Bytes} (hd : EntriesHeld m dir)
    (hobj : U (tTree, treeSerialize (sortEntries dir)))
    (hstore : casTreeStore noFaults st false dir now = .ok (st', root)) :
    root = dirAddress (sortEntries dir) ∧ validHash root = true ∧
      ∃ m', Kept m m' ∧ Stocked cs U st' m' ∧ DirHeld m' root (sortEntries dir) ∧ TreeHeld m' root := by
  obtain ⟨hroot, hs, hv, -⟩ := casTreeStore_text cs hstore
  have hsorted : EntriesHeld m (sortEntries dir) := fun e he => hd e ((sortEntries_perm dir).mem_iff.mp he)
  have hput := casTreeStore_put hstore
  have hhash := casPutObject_hashed hput
  have hlow : LowerHash root := casHashObject_ok hhash ▸ lowerHash_toHex _ (length_digest2 _ _)
  have had := admitted_text (fun e he => (hsorted e he).printable) hs hhash
  have hk := kept_put m root (tTree, treeSerialize (sortEntries dir))
  have hst : Stocked cs U st' (put m root (tTree, treeSerialize (sortEntries dir))) :=
    ⟨h.holds.put hr (w := .put) hput hlow fun _ => hU.raw _ hobj, h.known.put hobj had⟩
  -- what was at the address before may be the directory in its other form
  obtain ⟨held, hheld, hcanon⟩ := h.known.put_canonical hobj had hU.apart
  have hdir : DirHeld (put m root (tTree, treeSerialize (sortEntries dir))) root (sortEntries dir) :=
    ⟨held, hheld, objectDir_of_canonical (fun e he => (hsorted e he).printable) hs
      (hcanon.trans (canonical_plain (Ne.symm tHtree_ne_tTree)))⟩
  exact ⟨hroot, hv, _, hk, hst, hdir, hdir.tree (hsorted.mono hk)⟩

end

/-! ## The logs -/

/-- A commit, and the directory that was committed. -/
structure Committed where
  commit : Commit
  dir : Dir

def Committed.time (v : Committed) : BitVec 64 := BitVec.ofInt 64 v.commit.timeS

/-- An entry of a log is of the version, the directory of which is held with all that is below it. -/
structure CommittedHeld (m : Holdings) (e : LogEntry) (v : Committed) : Prop where
  reported : e = v.commit.reported
  dir : DirHeld m e.hash v.dir
  whole : TreeHeld m e.hash

/-- The log of a ref lists its versions, and a ref that has a root has one. -/
structure RefKept (m : Holdings) (refs : Refs) (ref : Bytes) (l : List Committed) : Prop
    extends LogKept (CommittedHeld m) refs ref l where
  named : (refFile refs (ref ++ dotRoot)).isSome = true → l ≠ []

theorem refKept_new (m : Holdings) (ref : Bytes) : RefKept m none ref [] :=
  ⟨logKept_new ref, fun hsome => by cases hsome⟩

section
variable {m m' : Holdings} {refs refs' : Refs} {ref : Bytes} {l : List Committed}

theorem RefKept.mono (h : RefKept m refs ref l) (hk : Kept m m') : RefKept m' refs ref l where
  toLogKept := h.toLogKept.imp fun _ _ hv => ⟨hv.reported, hv.dir.mono hk, hv.whole.mono hk⟩
  named := h.named

theorem RefKept.congr (h : RefKept m refs ref l) (hfiles : ∀ file, refFile refs' file = refFile refs file) :
    RefKept m refs' ref l where
  toLogKept := by
    refine h.toLogKept.congr ?_ (hfiles _)
    unfold logFile
    rw [hfiles]
  named hsome := h.named (hfiles (ref ++ dotRoot) ▸ hsome)

/-- What a ref is read as is held whole. -/
theorem RefKept.read (h : RefKept m refs ref l) {hash : Bytes} (hread : casTreeRefRead noFaults refs ref = .ok hash) :
    TreeHeld m hash := by
  have hsome : (refFile refs (ref ++ dotRoot)).isSome = true := by
    obtain ⟨-, data, hdata, -⟩ := (casTreeRefRead_ok_iff refs ref).mp ⟨hash, hread⟩
    rw [hdata]
    rfl
  obtain ⟨e, v, -, hv, hlast⟩ := h.toLogKept.last (h.named hsome)
  obtain rfl := Except.ok.inj (hlast.symm.trans hread)
  exact hv.whole

/-- What a log names is held whole. -/
theorem logRoots_held {hist : Bytes → List Committed} (h : ∀ ref, RefKept m refs ref (hist ref)) (st : Store) :
    ∀ r ∈ logRoots noFaults ⟨st, refs⟩, TreeHeld m r := by
  intro r hr
  obtain ⟨ref, -, hr⟩ := List.mem_flatMap.mp hr
  obtain ⟨e, he, rfl⟩ := List.mem_map.mp hr
  have hmem : e ∈ (readAll (logFile refs ref)).1 := mem_logFile he
  obtain ⟨i, hi, rfl⟩ := List.mem_iff_getElem.mp hmem
  have hlen := (h ref).entries.length_eq
  exact (List.Forall₂.get (h ref).entries hi (by omega)).whole

omit m m' refs' ref l in
/-- A commit of which no call fails is made, or refused and nothing is changed. -/
theorem refCommit_refused {fails : CommitCall → Bool} (hfails : ∀ call, fails call = false) (kept : Nat)
    (name root comment : Bytes) (timeS timeNs : Int)
    (hno : (refCommit fails kept refs name root comment timeS timeNs).1 ≠ .ok) :
    (refCommit fails kept refs name root comment timeS timeNs).2 = refs := by
  obtain rfl : fails = fun _ => false := funext hfails
  cases hrun : casTreeRefCommit refs name root comment timeS timeNs with
  | ok refs' => exact absurd (refCommit_nothing_fails name kept refs refs' root comment _ _ hrun).1 hno
  | error rc =>
    unfold casTreeRefCommit at hrun
    split at hrun
    · next hbad =>
      unfold refCommit
      rw [if_pos hbad]
    · cases hrun

/-- **A commit** that is made adds a version. -/
theorem commit_kept {hist : Bytes → List Committed} (h : ∀ ref, RefKept m refs ref (hist ref))
    {fails : CommitCall → Bool} (hfails : ∀ call, fails call = false) (kept : Nat) (name : Bytes) {v : Committed}
    (hc : ShortCommit v.commit) (hdir : DirHeld m v.commit.root v.dir) (hwhole : TreeHeld m v.commit.root) :
    let r := refCommit fails kept refs name v.commit.root v.commit.comment.bytes v.commit.timeS v.commit.timeNs
    r.1 = .ok → ∀ ref, RefKept m r.2 ref (Function.update hist name (hist name ++ [v]) ref) := by
  obtain rfl : fails = fun _ => false := funext hfails
  intro r hok ref
  cases hrun : casTreeRefCommit refs name v.commit.root v.commit.comment.bytes v.commit.timeS v.commit.timeNs with
  | error rc =>
    unfold casTreeRefCommit at hrun
    split at hrun
    · next hbad =>
      unfold r refCommit at hok
      rw [if_pos hbad] at hok
      cases hok
    · cases hrun
  | ok refs' =>
    obtain ⟨hok, hfiles⟩ := refCommit_nothing_fails name kept refs refs' v.commit.root v.commit.comment.bytes _ _ hrun
    refine RefKept.congr ?_ hfiles
    by_cases heq : ref = name
    · subst heq
      rw [Function.update_self]
      exact ⟨(h ref).toLogKept.commit hc ⟨rfl, hdir, hwhole⟩ hrun, fun _ => by simp⟩
    · rw [Function.update_of_ne heq]
      refine ⟨(h ref).toLogKept.commit_other hrun heq, fun hsome => (h ref).named ?_⟩
      rwa [commit_other_root hrun ref heq] at hsome

/-- **A truncation** that succeeds leaves the versions that are to survive. -/
theorem prune_kept {hist : Bytes → List Committed} (h : ∀ ref, RefKept m refs ref (hist ref)) {flt : PruneFaults}
    (hread : ∀ n, flt.readLine n = false) (basedir name : Bytes) (keepCount keepSince : Int) :
    let r := casTreeLogTruncate flt basedir refs name keepCount keepSince
    (r.status = .ok → ∀ ref, RefKept m r.refs ref
      (Function.update hist name (prunedBy Committed.time keepCount keepSince (hist name)) ref)) ∧
    (r.status ≠ .ok → ∀ ref, RefKept m r.refs ref (hist ref)) := by
  intro r
  have htime : ∀ e v, CommittedHeld m e v → e.timeS = v.time := fun e v hv => by
    rw [hv.reported]
    rfl
  have hroot : ∀ ref, refFile r.refs (ref ++ dotRoot) = refFile refs (ref ++ dotRoot) :=
    truncate_root flt keepCount keepSince basedir refs
  have hother : ∀ ref, (ref = name → r.status ≠ .ok) → RefKept m r.refs ref (hist ref) := fun ref hno =>
    ⟨(h ref).toLogKept.prune_kept hno, fun hsome => (h ref).named (hroot ref ▸ hsome)⟩
  refine ⟨fun hok ref => ?_, fun hno ref => hother ref fun _ => hno⟩
  by_cases heq : ref = name
  · subst heq
    rw [Function.update_self]
    refine ⟨(h ref).toLogKept.prune Committed.time htime hread hok, fun hsome hnil => ?_⟩
    have hlast := getLast?_prunedBy Committed.time keepCount keepSince (hist ref)
    rw [hnil] at hlast
    exact (h ref).named (hroot ref ▸ hsome) (List.getLast?_eq_none_iff.mp hlast.symm)
  · rw [Function.update_of_ne heq]
    exact hother ref fun hname => absurd hname heq

end

/-! ## One command -/

/-- A depot with what it holds and the versions its logs list. -/
structure SoundDepot (cs : Codecs) (U : Object → Prop) (m : Holdings) (ct : CasTree) (hist : Bytes → List Committed) :
    Prop where
  stocked : Stocked cs U ct.store m
  refs : ∀ ref, RefKept m ct.refs ref (hist ref)

/-- A host on which no call of a commit fails and logs are read to their ends. -/
structure HostWell (host : ToolHost) : Prop where
  fails : ∀ call, host.fails call = false
  timeS : -2 ^ 63 ≤ host.timeS ∧ host.timeS < 2 ^ 63
  timeNs : -2 ^ 31 ≤ host.timeNs ∧ host.timeNs < 2 ^ 31
  readLine : ∀ n, host.prune.readLine n = false

/-- The version an edit commits. -/
def Edited.version (host : Host) (comment : CStr) (e : Edited) : Committed :=
  ⟨⟨dirAddress (sortEntries e.dir), comment, host.timeS, host.timeNs⟩, sortEntries e.dir⟩

section
variable {cs : Codecs} {cfg : CompressConfig} {U : Object → Prop} (hU : ObjectsFit cs cfg U) (hr : cs.RoundTrips)
  {host : ToolHost} (hwell : HostWell host) {ct : CasTree} {m : Holdings} {hist : Bytes → List Committed}

include hU hr hwell in
/-- **The end of an edit**: the tree is held, and the ref has a version more if the command succeeds. -/
theorem storeAndCommit_kept (h : SoundDepot cs U m ct hist) (cmd : EditCmd) {e : Edited} (hd : EntriesHeld m e.dir)
    (hobj : U (tTree, treeSerialize (sortEntries e.dir))) :
    let r := storeAndCommit host.toHost noFaults ct e.refname e.dir e.turns cmd.comment.bytes
    ∃ m', (r.1 = 0 ∧ SoundDepot cs U m' r.2
      (Function.update hist e.refname (hist e.refname ++ [e.version host.toHost cmd.comment]))) ∨
        (r.1 ≠ 0 ∧ SoundDepot cs U m' r.2 hist) := by
  unfold storeAndCommit
  cases hstore : casTreeStore noFaults ct.store false e.dir (host.clock e.turns) with
  | error rc => exact ⟨m, .inr ⟨by simp, h⟩⟩
  | ok out =>
    obtain ⟨st, root⟩ := out
    obtain ⟨hroot, hv, m', hk, hst, hdir, hwhole⟩ := casTreeStore_stocked hU hr h.stocked hd hobj hstore
    have hcomment : (10 : UInt8) ∉ cmd.comment.bytes ∧ cmd.comment.bytes.length ≤ 100 := by cases cmd <;> decide
    have hc : ShortCommit ⟨root, cmd.comment, host.timeS, host.timeNs⟩ :=
      shortCommit_comment hv hcomment.1 hcomment.2 hwell.timeS hwell.timeNs
    have hversion : e.version host.toHost cmd.comment =
        ⟨⟨root, cmd.comment, host.timeS, host.timeNs⟩, sortEntries e.dir⟩ := by
      unfold Edited.version
      rw [← hroot]
    have hcommit := commit_kept (v := ⟨⟨root, cmd.comment, host.timeS, host.timeNs⟩, sortEntries e.dir⟩)
      (fun ref => (h.refs ref).mono hk) hwell.fails host.kept e.refname hc hdir hwhole
    have hrefused : _ → (refCommit host.fails host.kept ct.refs e.refname root cmd.comment.bytes host.timeS
        host.timeNs).2 = ct.refs := refCommit_refused hwell.fails host.kept _ _ _ _ _
    rw [hversion]
    refine ⟨m', ?_⟩
    simp only [] at hcommit ⊢
    generalize refCommit host.fails host.kept ct.refs e.refname root cmd.comment.bytes host.timeS host.timeNs = r
      at hcommit hrefused ⊢
    obtain ⟨rc, refs⟩ := r
    cases rc with
    | ok => exact .inl ⟨rfl, hst, hcommit rfl⟩
    | _ =>
      obtain rfl := hrefused (by simp)
      exact .inr ⟨by simp, hst, fun ref => (h.refs ref).mono hk⟩

variable (h : SoundDepot cs U m ct hist)

include hU hr h

/-- **A collection** keeps every version. -/
theorem gcCall_kept (hsync : casReloadPack noFaults ct.store = ct.store) (call : GcCall) (grace now : Int)
    (fn : Nat → Bytes → Bool) :
    ∃ m', SoundDepot cs U m' ⟨(call.run cs noFaults ct grace now fn).2, ct.refs⟩ hist := by
  have hfits : call.Fits cs m := by
    cases call with
    | gc => trivial
    | gcPack policy codec => exact hU.pack h.stocked.known policy codec
  have hroots : ∀ r ∈ logRoots noFaults ct, TreeHeld m r := logRoots_held h.refs ct.store
  refine ⟨_, ⟨GcCall.holds hr h.stocked.holds.handle hsync hfits grace now fn, h.stocked.known.left _⟩, fun ref => ?_⟩
  have hall := (h.refs ref).entries
  refine ⟨⟨(h.refs ref).sound, ?_, (h.refs ref).root⟩, (h.refs ref).named⟩
  refine List.forall₂_iff_get.mpr ⟨hall.length_eq, fun i hi hi' => ?_⟩
  have hv := hall.get hi hi'
  have hreach : Walk.Reach (treeKids cs noFaults ct.store) (fun _ => True) (logRoots noFaults ct)
      (((readAll (logFile ct.refs ref)).1.get ⟨i, hi⟩).hash, true) :=
    .root ((h.refs ref).roots (List.get_mem _ _) ct.store)
  obtain ⟨obj, hobj, hdir⟩ := hv.dir
  have hleft := GcCall.left_reached hr h.stocked.holds.handle hsync hfits grace now fn hroots hobj ⟨true, hreach⟩
  exact ⟨hv.reported, ⟨obj, (leftIn_of_left hleft).trans hobj, hdir⟩,
    GcCall.left_tree hr h.stocked.holds.handle hsync hfits grace now fn hroots hv.whole hreach⟩

/-- **A pack** changes nothing. -/
theorem packed_kept {policy : Policy} {codec : Int} {rc : Status} {st : Store}
    (hrun : casPackCreateZ cs noFaults ct.store packDat policy codec = (rc, st)) :
    SoundDepot cs U m ⟨st, ct.refs⟩ hist := by
  by_cases hok : rc = .ok
  · subst hok
    exact ⟨⟨h.stocked.holds.pack hr (hU.pack h.stocked.known policy codec) hrun, h.stocked.known⟩, h.refs⟩
  · obtain rfl := packCreate_failed cs noFaults ct.store st packDat policy codec none rc hrun hok
    exact h

omit hU hr in
theorem reclaimed_kept : SoundDepot cs U m ⟨(casPackReclaim cs noFaults ct.store packDat).1, ct.refs⟩ hist :=
  ⟨⟨h.stocked.holds.reclaim rfl, h.stocked.known⟩, h.refs⟩

/-- **A bundle** adds objects. -/
theorem imported_kept {policy : Policy} {codec : Int} {now : Bytes → Int} {bundle : Pack}
    (hobjs : ∀ e ∈ bundleObjects cs bundle (casPackHashes bundle), Admitted e.2 e.1 → U e.2) :
    ∃ m', SoundDepot cs U m'
      ⟨(casPackImport cs cfg noFaults policy codec (some (treeVerifier noFaults)) now bundle ct.store).1, ct.refs⟩
      hist := by
  obtain ⟨pre, post, hxs, -, hadmitted, hholds⟩ := @Holds.import cs cfg noFaults policy codec now bundle hr ct.store m
    h.stocked.holds (hU.bundle hobjs)
  have hpre : ∀ e ∈ bundleObjects cs bundle pre, U e.2 ∧ Admitted e.2 e.1 := by
    intro e he
    refine ⟨hobjs e ?_ (hadmitted e he), hadmitted e he⟩
    unfold bundleObjects at he ⊢
    rw [hxs, List.filterMap_append]
    exact List.mem_append_left _ he
  exact ⟨_, ⟨hholds, h.stocked.known.putAll hpre⟩, fun ref => (h.refs ref).mono (kept_putAll _ _)⟩

end

end Smolvfs
