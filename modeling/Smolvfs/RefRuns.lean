import Smolvfs.GcKeep
import Smolvfs.LogTruncate

/-!
# Commits and truncations that fail or are cut off

A ref goes through `cas_tree_ref_commit` and `cas_tree_log_truncate` one
file-system step at a time, under its lock; any call may stop after any step.

`live_root_logged`: in a run whose steps are `Guarded` the hash in the root file is
always that of an entry `cas_tree_log_read` reports, so a collection marks it.  A
commit must find a log that reads to its end, and a truncation must keep an entry
of the root.  `truncated_after_crash` is a run without that.
-/

namespace Smolvfs

open Octets

/-! ## Where a call is -/

/-- Where a commit is; `torn` and `spoiled` are a write to the log and to the new root that came to no end. -/
inductive CommitAt
  | begun | locked | cleared | opened | torn | logged | prevCleared | prevLinked | kept | made | spoiled | filled
  deriving DecidableEq

/-- Where a truncation is, with the text of the new log. -/
inductive TruncateAt
  | locked | read (text : Bytes) | cleared (text : Bytes) | made (text : Bytes) | spoiled | filled (text : Bytes)

inductive RefCall
  | idle
  | commit (c : Commit) (stage : CommitAt)
  | truncate (keepCount keepSince : Int) (stage : TruncateAt)

/-- The refs directory and the call that has the ref's lock. -/
structure RefWorld where
  refs : Refs
  call : RefCall

def rootTmp (name : Bytes) : Bytes := name ++ dotRoot ++ dotTmp
def prevTmp (name : Bytes) : Bytes := name ++ dotPrev ++ dotTmp
def logTmp (name : Bytes) : Bytes := name ++ dotLog ++ dotTmp

/-! ## Steps -/

/-- The steps of a commit up to the last one.  What `unlink`, `access`, `link` and the first `rename` return
is not passed on. -/
inductive CommitStep (name : Bytes) (c : Commit) : RefFiles → CommitAt → RefFiles → CommitAt → Prop
  | lock (d : RefFiles) : CommitStep name c d .begun (lockRef name d) .locked
  | clear (d : RefFiles) : CommitStep name c d .locked (d.erase (rootTmp name)) .cleared
  | clearFailed (d : RefFiles) : CommitStep name c d .locked d .cleared
  | openLog (d : RefFiles) : CommitStep name c d .cleared (appendLog name [] d) .opened
  | tear (d : RefFiles) (k : Nat) (hk : k < c.record.length) :
    CommitStep name c d .opened (appendLog name (c.record.take k) d) .torn
  | append (d : RefFiles) : CommitStep name c d .opened (appendLog name c.record d) .logged
  | noRoot (d : RefFiles) : CommitStep name c d .logged d .kept
  | clearPrev (d : RefFiles) : CommitStep name c d .logged (d.erase (prevTmp name)) .prevCleared
  | clearPrevFailed (d : RefFiles) : CommitStep name c d .logged d .prevCleared
  | linkPrev (d : RefFiles) (old : Bytes) (ho : d.lookup (name ++ dotRoot) = some old)
    (hn : d.lookup (prevTmp name) = none) :
    CommitStep name c d .prevCleared (d.insert (prevTmp name) old) .prevLinked
  | linkFailed (d : RefFiles) : CommitStep name c d .prevCleared d .kept
  | renamePrev (d : RefFiles) (old : Bytes) (ho : d.lookup (prevTmp name) = some old) :
    CommitStep name c d .prevLinked ((d.erase (prevTmp name)).insert (name ++ dotPrev) old) .kept
  | renameFailed (d : RefFiles) : CommitStep name c d .prevLinked d .kept
  | make (d : RefFiles) : CommitStep name c d .kept (d.insert (rootTmp name) []) .made
  | spoil (d : RefFiles) (k : Nat) :
    CommitStep name c d .made (d.insert (rootTmp name) ((c.root ++ [10]).take k)) .spoiled
  | fill (d : RefFiles) : CommitStep name c d .made (d.insert (rootTmp name) (c.root ++ [10])) .filled

/-- The steps of a truncation between the reading of the log and the last one. -/
inductive TruncateStep (name : Bytes) : RefFiles → TruncateAt → RefFiles → TruncateAt → Prop
  | clear (d : RefFiles) (text : Bytes) : TruncateStep name d (.read text) (d.erase (logTmp name)) (.cleared text)
  | clearFailed (d : RefFiles) (text : Bytes) : TruncateStep name d (.read text) d (.cleared text)
  | make (d : RefFiles) (text : Bytes) :
    TruncateStep name d (.cleared text) (d.insert (logTmp name) []) (.made text)
  | spoil (d : RefFiles) (text : Bytes) (k : Nat) :
    TruncateStep name d (.made text) (d.insert (logTmp name) (text.take k)) .spoiled
  | fill (d : RefFiles) (text : Bytes) :
    TruncateStep name d (.made text) (d.insert (logTmp name) text) (.filled text)

/-- The steps that something is asked of: the whole record goes to the log, and a truncation has read `count`
lines of it. -/
inductive RefAct
  | append
  | read (count : Nat)
  | other

/-- The steps.  `stop` is a call that returns, with success or an error, or is cut off. -/
inductive RefStep (name : Bytes) : RefWorld → RefAct → RefWorld → Prop
  | beginCommit (refs : Refs) (c : Commit) (hn : validRefName name = true) (hv : validHash c.root = true) :
    RefStep name ⟨refs, .idle⟩ .other ⟨some (refs.getD ∅), .commit c .begun⟩
  | commit (d d' : RefFiles) (c : Commit) (stage stage' : CommitAt) (h : CommitStep name c d stage d' stage') :
    RefStep name ⟨some d, .commit c stage⟩ (if stage' = .logged then .append else .other)
      ⟨some d', .commit c stage'⟩
  | setRoot (d : RefFiles) (c : Commit) (data : Bytes) (h : d.lookup (rootTmp name) = some data) :
    RefStep name ⟨some d, .commit c .filled⟩ .other
      ⟨some ((d.erase (rootTmp name)).insert (name ++ dotRoot) data), .idle⟩
  | dropRoot (d : RefFiles) (c : Commit) (stage : CommitAt) (h : stage = .spoiled ∨ stage = .filled) :
    RefStep name ⟨some d, .commit c stage⟩ .other ⟨some (d.erase (rootTmp name)), .idle⟩
  | beginTruncate (d : RefFiles) (keepCount keepSince : Int) (hn : validRefName name = true)
    (hb : 0 < keepCount ∨ 0 < keepSince) :
    RefStep name ⟨some d, .idle⟩ .other ⟨some (lockRef name d), .truncate keepCount keepSince .locked⟩
  | read (d : RefFiles) (keepCount keepSince : Int) (log : Bytes) (fault : Nat → Bool)
    (lines : List (Bytes × BitVec 64)) (hl : d.lookup (name ++ dotLog) = some log)
    (hr : truncateLines fault log.length 0 log = .ok lines)
    (hg : keptLines keepCount keepSince lines ≠ lines.map Prod.fst) :
    RefStep name ⟨some d, .truncate keepCount keepSince .locked⟩ (.read lines.length)
      ⟨some d, .truncate keepCount keepSince (.read (logText (keptLines keepCount keepSince lines)))⟩
  | truncate (d d' : RefFiles) (keepCount keepSince : Int) (stage stage' : TruncateAt)
    (h : TruncateStep name d stage d' stage') :
    RefStep name ⟨some d, .truncate keepCount keepSince stage⟩ .other ⟨some d', .truncate keepCount keepSince stage'⟩
  | setLog (d : RefFiles) (keepCount keepSince : Int) (text data : Bytes)
    (h : d.lookup (logTmp name) = some data) :
    RefStep name ⟨some d, .truncate keepCount keepSince (.filled text)⟩ .other
      ⟨some ((d.erase (logTmp name)).insert (name ++ dotLog) data), .idle⟩
  | dropLog (d : RefFiles) (keepCount keepSince : Int) (stage : TruncateAt)
    (h : stage = .spoiled ∨ ∃ text, stage = .filled text) :
    RefStep name ⟨some d, .truncate keepCount keepSince stage⟩ .other ⟨some (d.erase (logTmp name)), .idle⟩
  | stop (refs : Refs) (call : RefCall) : RefStep name ⟨refs, call⟩ .other ⟨refs, .idle⟩

/-! ## What is asked of the steps -/

/-- `cas_tree_log_read` reports an entry with the hash. -/
def Reports (refs : Refs) (name hash : Bytes) : Prop :=
  hash ∈ (casTreeLogRead noFaults refs name).1.map LogEntry.hash

/-- The root file, if there is one, is read, and its hash is reported. -/
def RootLogged (refs : Refs) (name : Bytes) : Prop :=
  (refFile refs (name ++ dotRoot)).isSome = true →
    ∃ hash, casTreeRefRead noFaults refs name = .ok hash ∧ Reports refs name hash

/-- The record of the commit, up to its first newline, fits the reader's buffer. -/
def FirstLineFits (c : Commit) : Prop :=
  (logBody c.root c.timeS c.timeNs (c.comment.bytes.takeWhile (· != 10))).length + 1 < LOG_LINE

/-- What is asked of a step.  Where a whole record goes to the log: that its hash is reported already, or that
the log reads to its end, does not end within a line, and the record's first line fits the buffer.  Where a
truncation has read `count` lines and is to drop some: that among them is a reported entry of the root which
is the newest, or one of the last `keep_count`, or not older than `keep_since`. -/
def Guarded (name : Bytes) (w : RefWorld) (a : RefAct) : Prop :=
  match a, w.call with
  | .append, .commit c _ =>
    Reports w.refs name c.root ∨ (SoundLog ((refFile w.refs (name ++ dotLog)).getD []) ∧ FirstLineFits c)
  | .read count, .truncate keepCount keepSince _ =>
    ∀ hash, casTreeRefRead noFaults w.refs name = .ok hash →
      ∃ i e, (casTreeLogRead noFaults w.refs name).1[i]? = some e ∧ e.hash = hash ∧ i < count ∧
        logKeeps keepCount keepSince count i e.timeS = true
  | _, _ => True

/-- A run all of whose steps are guarded. -/
def GuardedRun (name : Bytes) : RefWorld → RefWorld → Prop :=
  Relation.ReflTransGen fun w w' => ∃ a, RefStep name w a w' ∧ Guarded name w a

/-! ## What the steps leave alone -/

/-- The root and the log are as they were. -/
structure SameRef (name : Bytes) (d d' : RefFiles) : Prop where
  root : d'.lookup (name ++ dotRoot) = d.lookup (name ++ dotRoot)
  log : d'.lookup (name ++ dotLog) = d.lookup (name ++ dotLog)

/-- The file is neither of them. -/
structure Aside (name file : Bytes) : Prop where
  root : name ++ dotRoot ≠ file
  log : name ++ dotLog ≠ file

section
variable {name : Bytes}

theorem aside_lock : Aside name (name ++ dotLock) := ⟨ref_ne name (by decide), ref_ne name (by decide)⟩

theorem aside_prev : Aside name (name ++ dotPrev) := ⟨ref_ne name (by decide), ref_ne name (by decide)⟩

theorem aside_rootTmp : Aside name (rootTmp name) := ⟨ref_ne_tmp name (by decide), ref_ne_tmp name (by decide)⟩

theorem aside_prevTmp : Aside name (prevTmp name) := ⟨ref_ne_tmp name (by decide), ref_ne_tmp name (by decide)⟩

theorem aside_logTmp : Aside name (logTmp name) := ⟨ref_ne_tmp name (by decide), ref_ne_tmp name (by decide)⟩

theorem SameRef.refl (d : RefFiles) : SameRef name d d := ⟨rfl, rfl⟩

theorem SameRef.insert {d d' : RefFiles} (h : SameRef name d d') {file : Bytes} (ha : Aside name file) (data : Bytes) :
    SameRef name d (d'.insert file data) :=
  ⟨(AList.lookup_insert_ne ha.root).trans h.root, (AList.lookup_insert_ne ha.log).trans h.log⟩

theorem SameRef.erase {d d' : RefFiles} (h : SameRef name d d') {file : Bytes} (ha : Aside name file) :
    SameRef name d (d'.erase file) :=
  ⟨(AList.lookup_erase_ne ha.root).trans h.root, (AList.lookup_erase_ne ha.log).trans h.log⟩

theorem SameRef.lock (d : RefFiles) : SameRef name d (lockRef name d) := by
  unfold lockRef
  split
  · exact SameRef.refl d
  · exact (SameRef.refl d).insert aside_lock []

/-- What a step of a commit may do to the root and the log. -/
structure Lengthens (name : Bytes) (d d' : RefFiles) : Prop where
  root : d'.lookup (name ++ dotRoot) = d.lookup (name ++ dotRoot)
  log : d'.lookup (name ++ dotLog) = d.lookup (name ++ dotLog) ∨
    ∃ more, d'.lookup (name ++ dotLog) = some ((d.lookup (name ++ dotLog)).getD [] ++ more)

theorem SameRef.lengthens {d d' : RefFiles} (h : SameRef name d d') : Lengthens name d d' := ⟨h.root, .inl h.log⟩

theorem lengthens_appendLog (d : RefFiles) (more : Bytes) : Lengthens name d (appendLog name more d) :=
  ⟨AList.lookup_insert_ne (ref_ne name (by decide)), .inr ⟨more, AList.lookup_insert _⟩⟩

/-- **A step of a commit** leaves the root alone and at most lengthens the log. -/
theorem CommitStep.lengthens {c : Commit} {d d' : RefFiles} {stage stage' : CommitAt}
    (h : CommitStep name c d stage d' stage') : Lengthens name d d' := by
  have hsame := @SameRef.refl name d
  cases h with
  | lock => exact (SameRef.lock d).lengthens
  | clear => exact (hsame.erase aside_rootTmp).lengthens
  | clearFailed => exact hsame.lengthens
  | openLog => exact lengthens_appendLog d []
  | tear k hk => exact lengthens_appendLog d _
  | append => exact lengthens_appendLog d _
  | noRoot => exact hsame.lengthens
  | clearPrev => exact (hsame.erase aside_prevTmp).lengthens
  | clearPrevFailed => exact hsame.lengthens
  | linkPrev old ho hn => exact (hsame.insert aside_prevTmp old).lengthens
  | linkFailed => exact hsame.lengthens
  | renamePrev old ho => exact ((hsame.erase aside_prevTmp).insert aside_prev old).lengthens
  | renameFailed => exact hsame.lengthens
  | make => exact (hsame.insert aside_rootTmp []).lengthens
  | spoil k => exact (hsame.insert aside_rootTmp _).lengthens
  | fill => exact (hsame.insert aside_rootTmp _).lengthens

/-- A step of a truncation touches neither. -/
theorem TruncateStep.same {d d' : RefFiles} {stage stage' : TruncateAt} (h : TruncateStep name d stage d' stage') :
    SameRef name d d' := by
  have hsame := @SameRef.refl name d
  cases h with
  | clear => exact hsame.erase aside_logTmp
  | clearFailed => exact hsame
  | make => exact hsame.insert aside_logTmp []
  | spoil => exact hsame.insert aside_logTmp _
  | fill => exact hsame.insert aside_logTmp _

/-! ## What is reported -/

/-- The entries of a log that is there, and none otherwise. -/
theorem reports_iff (d : RefFiles) (hash : Bytes) (hn : validRefName name = true) :
    Reports (some d) name hash ↔
      hash ∈ (readAll ((d.lookup (name ++ dotLog)).getD [])).1.map LogEntry.hash := by
  unfold Reports
  cases hl : d.lookup (name ++ dotLog) with
  | some log => rw [casTreeLogRead_noFaults (some d) name log hn hl]; rfl
  | none =>
    have hnone : refFile (some d) (name ++ dotLog) = none := hl
    unfold casTreeLogRead
    rw [if_neg (by simp [hn]), hnone]
    rfl

/-- What was reported stays so when the log is lengthened. -/
theorem Lengthens.reports {d d' : RefFiles} (h : Lengthens name d d') {hash : Bytes} (hn : validRefName name = true)
    (hr : Reports (some d) name hash) : Reports (some d') name hash := by
  rw [reports_iff d hash hn] at hr
  rw [reports_iff d' hash hn]
  rcases h.log with hl | ⟨more, hl⟩
  · rw [hl]
    exact hr
  · obtain ⟨added, hadd⟩ := (readAll_append ((d.lookup (name ++ dotLog)).getD []) more).1
    rw [hl, Option.getD_some, hadd, List.map_append]
    exact List.mem_append_left _ hr

/-- The root is read from its file alone. -/
theorem casTreeRefRead_congr {refs refs' : Refs}
    (h : refFile refs' (name ++ dotRoot) = refFile refs (name ++ dotRoot)) :
    casTreeRefRead noFaults refs' name = casTreeRefRead noFaults refs name := by
  unfold casTreeRefRead
  rw [h]

theorem RootLogged.congr {refs refs' : Refs} (h : RootLogged refs name)
    (hroot : refFile refs' (name ++ dotRoot) = refFile refs (name ++ dotRoot))
    (hr : ∀ hash, casTreeRefRead noFaults refs name = .ok hash → Reports refs name hash → Reports refs' name hash) :
    RootLogged refs' name := by
  intro hs
  rw [hroot] at hs
  obtain ⟨hash, hread, hrep⟩ := h hs
  exact ⟨hash, (casTreeRefRead_congr hroot).trans hread, hr hash hread hrep⟩

/-- A root file a commit wrote is read as its root. -/
theorem casTreeRefRead_written (refs : Refs) (root : Bytes) (hn : validRefName name = true)
    (hv : validHash root = true) (hfile : refFile refs (name ++ dotRoot) = some (root ++ [10])) :
    casTreeRefRead noFaults refs name = .ok root := by
  have hlen : root.length = CAS_HASH_HEX := ((validHash_iff root).mp hv).1
  have hne := validHash_ne root hv
  have h10 : (10 : UInt8) ∉ root := fun hm => (hne 10 hm).2 rfl
  have h0 : (0 : UInt8) ∉ root ++ [10] := by
    simp only [List.mem_append, List.mem_singleton, not_or]
    exact ⟨fun hm => (hne 0 hm).1 rfl, by decide⟩
  have htake : (root ++ [10]).take (fgetsLen (CAS_HASH_HEX + 2) (root ++ [10])) = root ++ [10] := by
    unfold fgetsLen
    rw [lineLen_body root [] h10]
    refine List.take_of_length_le ?_
    show _ ≤ min (CAS_HASH_HEX + 2 - 1) (root.length + 1)
    rw [List.length_append, List.length_singleton, hlen]
    decide
  have hline : (CStr.ofBuf (root ++ [10])).bytes = root ++ [10] := takeWhile_ne _ h0
  unfold casTreeRefRead
  rw [if_neg (by simp [hn]), hfile]
  simp [noFaults, htake, hline, hlen]

/-- What a commit has committed is read. -/
theorem casTreeRefRead_commit (refs refs' : Refs) (root comment : Bytes) (timeS timeNs : Int)
    (h : casTreeRefCommit refs name root comment timeS timeNs = .ok refs') :
    casTreeRefRead noFaults refs' name = .ok root := by
  obtain ⟨hn, hv, -, hfile⟩ := casTreeRefCommit_files refs refs' name root comment timeS timeNs h
  exact casTreeRefRead_written refs' root hn hv hfile

/-- A whole record on a sound log is reported, when its first line fits. -/
theorem reports_append (d : RefFiles) (c : Commit) (hn : validRefName name = true) (hv : validHash c.root = true)
    (hs : SoundLog ((d.lookup (name ++ dotLog)).getD [])) (hf : FirstLineFits c) :
    Reports (some (appendLog name c.record d)) name c.root := by
  have hrec := readAll_record c.root hv c.timeS c.timeNs c.comment []
  have hlog : (appendLog name c.record d).lookup (name ++ dotLog) = some _ := AList.lookup_insert _
  unfold FirstLineFits at hf
  rw [List.append_nil] at hrec
  simp only [] at hrec
  rw [if_pos hf] at hrec
  obtain ⟨rest, hread, -⟩ := hrec
  have hread : readAll c.record = _ := hread
  rw [reports_iff _ _ hn, hlog, Option.getD_some, (readAll_append _ _).2 hs, hread]
  simp

/-! ## The invariant -/

/-- The record of the commit is in the log. -/
def CommitAt.recorded : CommitAt → Bool
  | .begun | .locked | .cleared | .opened | .torn => false
  | .logged | .prevCleared | .prevLinked | .kept | .made | .spoiled | .filled => true

/-- The new log, once it is decided on. -/
def TruncateAt.text : TruncateAt → Option Bytes
  | .locked | .spoiled => none
  | .read text | .cleared text | .made text | .filled text => some text

/-- The root is logged, the root of a commit whose record is written is reported, and a new log reports the root. -/
structure RefWorld.Inv (name : Bytes) (w : RefWorld) : Prop where
  logged : RootLogged w.refs name
  named : w.call = .idle ∨ validRefName name = true
  valid : ∀ c stage, w.call = .commit c stage → validHash c.root = true
  recorded : ∀ c stage, w.call = .commit c stage → stage.recorded = true → Reports w.refs name c.root
  filled : ∀ c, w.call = .commit c .filled → refFile w.refs (rootTmp name) = some (c.root ++ [10])
  kept : ∀ keepCount keepSince stage text, w.call = .truncate keepCount keepSince stage → stage.text = some text →
    ∀ hash, casTreeRefRead noFaults w.refs name = .ok hash → hash ∈ (readAll text).1.map LogEntry.hash
  written : ∀ keepCount keepSince text, w.call = .truncate keepCount keepSince (.filled text) →
    refFile w.refs (logTmp name) = some text

/-- Nothing but the root is asked for when no call has the lock. -/
theorem inv_idle (refs : Refs) (h : RootLogged refs name) : RefWorld.Inv name ⟨refs, .idle⟩ where
  logged := h
  named := .inl rfl
  valid := by simp
  recorded := by simp
  filled := by simp
  kept := by simp
  written := by simp

theorem CommitStep.recorded_cases {c : Commit} {d d' : RefFiles} {stage stage' : CommitAt}
    (h : CommitStep name c d stage d' stage') (hr : stage'.recorded = true) :
    stage.recorded = true ∨ (stage' = .logged ∧ d' = appendLog name c.record d) := by
  cases h with
  | append => exact .inr ⟨rfl, rfl⟩
  | noRoot => exact .inl rfl
  | clearPrev => exact .inl rfl
  | clearPrevFailed => exact .inl rfl
  | linkPrev old ho hn => exact .inl rfl
  | linkFailed => exact .inl rfl
  | renamePrev old ho => exact .inl rfl
  | renameFailed => exact .inl rfl
  | make => exact .inl rfl
  | spoil k => exact .inl rfl
  | fill => exact .inl rfl
  | _ => cases hr

/-- A step of a commit keeps the invariant. -/
theorem inv_commit (d d' : RefFiles) (c : Commit) (stage stage' : CommitAt) (h : CommitStep name c d stage d' stage')
    (hi : RefWorld.Inv name ⟨some d, .commit c stage⟩)
    (hg : Guarded name ⟨some d, .commit c stage⟩ (if stage' = .logged then .append else .other)) :
    RefWorld.Inv name ⟨some d', .commit c stage'⟩ := by
  have hn : validRefName name = true := hi.named.resolve_left (by simp)
  have hv := hi.valid c stage rfl
  have hlen := h.lengthens
  refine ⟨?_, .inr hn, ?_, ?_, ?_, ?_, ?_⟩
  · exact hi.logged.congr hlen.root fun hash _ hr => hlen.reports hn hr
  · intro c' stage'' heq
    obtain ⟨rfl, -⟩ := RefCall.commit.inj heq
    exact hv
  · intro c' stage'' heq hr
    obtain ⟨rfl, rfl⟩ := RefCall.commit.inj heq
    rcases h.recorded_cases hr with hr | ⟨rfl, rfl⟩
    · exact hlen.reports hn (hi.recorded c stage rfl hr)
    · rw [if_pos rfl] at hg
      rcases hg with hrep | ⟨hs, hf⟩
      · exact hlen.reports hn hrep
      · exact reports_append d c hn hv hs hf
  · intro c' heq
    obtain ⟨rfl, rfl⟩ := RefCall.commit.inj heq
    cases h
    exact AList.lookup_insert _
  · intro keepCount keepSince stage'' text heq
    cases heq
  · intro keepCount keepSince text heq
    cases heq

/-- A step of a truncation that goes on with the new log keeps it. -/
theorem inv_truncate (d d' : RefFiles) (keepCount keepSince : Int) (stage stage' : TruncateAt)
    (h : TruncateStep name d stage d' stage') (hi : RefWorld.Inv name ⟨some d, .truncate keepCount keepSince stage⟩) :
    RefWorld.Inv name ⟨some d', .truncate keepCount keepSince stage'⟩ := by
  have hn : validRefName name = true := hi.named.resolve_left (by simp)
  have hsame := h.same
  have hread : casTreeRefRead noFaults (some d') name = casTreeRefRead noFaults (some d) name :=
    casTreeRefRead_congr hsame.root
  have htext : ∀ text, stage'.text = some text → stage.text = some text := by
    intro text ht
    cases h <;> first | exact ht | cases ht
  refine ⟨?_, .inr hn, ?_, ?_, ?_, ?_, ?_⟩
  · exact hi.logged.congr hsame.root fun hash _ hr => hsame.lengthens.reports hn hr
  · intro c stage'' heq
    cases heq
  · intro c stage'' heq
    cases heq
  · intro c heq
    cases heq
  · intro kc ks stage'' text heq ht hash hr
    obtain ⟨rfl, rfl, rfl⟩ := RefCall.truncate.inj heq
    rw [hread] at hr
    exact hi.kept _ _ stage text rfl (htext text ht) hash hr
  · intro kc ks text heq
    obtain ⟨rfl, rfl, rfl⟩ := RefCall.truncate.inj heq
    cases h
    exact AList.lookup_insert _

/-- **Every guarded step keeps the invariant.** -/
theorem refInv_step {w w' : RefWorld} {a : RefAct} (hi : w.Inv name) (hs : RefStep name w a w')
    (hg : Guarded name w a) : w'.Inv name := by
  cases hs with
  | beginCommit refs c hn hv =>
    have hsame : ∀ file, refFile (some (refs.getD ∅)) file = refFile refs file := by
      intro file
      cases refs <;> rfl
    have hlogged : RootLogged (some (refs.getD ∅)) name := by
      refine hi.logged.congr (hsame _) fun hash _ hr => ?_
      unfold Reports casTreeLogRead at hr ⊢
      rw [hsame]
      exact hr
    refine ⟨hlogged, .inr hn, ?_, ?_, ?_, ?_, ?_⟩
    · intro c' stage heq
      obtain ⟨rfl, -⟩ := RefCall.commit.inj heq
      exact hv
    · intro c' stage heq hr
      obtain ⟨-, rfl⟩ := RefCall.commit.inj heq
      cases hr
    · intro c' heq
      cases (RefCall.commit.inj heq).2
    · intro keepCount keepSince stage text heq
      cases heq
    · intro keepCount keepSince text heq
      cases heq
  | commit d d' c stage stage' h => exact inv_commit d d' c stage stage' h hi hg
  | setRoot d c data h =>
    have hn : validRefName name = true := hi.named.resolve_left (by simp)
    have hv := hi.valid c _ rfl
    obtain rfl : data = c.root ++ [10] := Option.some.inj (h.symm.trans (hi.filled c rfl))
    refine inv_idle _ fun _ => ⟨c.root, ?_, ?_⟩
    · exact casTreeRefRead_written _ c.root hn hv (AList.lookup_insert _)
    · have hrep := hi.recorded c _ rfl rfl
      rw [reports_iff _ _ hn] at hrep ⊢
      rw [AList.lookup_insert_ne (ref_ne name (by decide)), AList.lookup_erase_ne aside_rootTmp.log]
      exact hrep
  | dropRoot d c stage h =>
    have hn : validRefName name = true := hi.named.resolve_left (by simp)
    have hsame := (@SameRef.refl name d).erase aside_rootTmp
    exact inv_idle _ (hi.logged.congr hsame.root fun hash _ hr => hsame.lengthens.reports hn hr)
  | beginTruncate d keepCount keepSince hn hb =>
    have hsame := @SameRef.lock name d
    refine ⟨?_, .inr hn, ?_, ?_, ?_, ?_, ?_⟩
    · exact hi.logged.congr hsame.root fun hash _ hr => hsame.lengthens.reports hn hr
    · intro c stage heq
      cases heq
    · intro c stage heq
      cases heq
    · intro c heq
      cases heq
    · intro kc ks stage text heq ht
      obtain ⟨-, -, rfl⟩ := RefCall.truncate.inj heq
      cases ht
    · intro kc ks text heq
      cases (RefCall.truncate.inj heq).2.2
  | read d keepCount keepSince log fault lines hl hr hdrop =>
    have hn : validRefName name = true := hi.named.resolve_left (by simp)
    refine ⟨hi.logged, .inr hn, ?_, ?_, ?_, ?_, ?_⟩
    · intro c stage heq
      cases heq
    · intro c stage heq
      cases heq
    · intro c heq
      cases heq
    · intro kc ks stage text heq ht hash hread
      obtain ⟨rfl, rfl, rfl⟩ := RefCall.truncate.inj heq
      obtain rfl := Option.some.inj ht
      obtain ⟨i, e, he, rfl, hcount, hkeep⟩ := hg hash hread
      rw [casTreeLogRead_noFaults (some d) name log hn hl] at he
      exact List.mem_map_of_mem (readAll_kept fault log lines _ _ hr i e hcount he hkeep)
    · intro kc ks text heq
      cases (RefCall.truncate.inj heq).2.2
  | truncate d d' keepCount keepSince stage stage' h => exact inv_truncate d d' keepCount keepSince stage stage' h hi
  | setLog d keepCount keepSince text data h =>
    have hn : validRefName name = true := hi.named.resolve_left (by simp)
    obtain rfl : data = text := Option.some.inj (h.symm.trans (hi.written _ _ _ rfl))
    have hroot : ((d.erase (logTmp name)).insert (name ++ dotLog) data).lookup (name ++ dotRoot) =
        d.lookup (name ++ dotRoot) := by
      rw [AList.lookup_insert_ne (ref_ne name (by decide)), AList.lookup_erase_ne aside_logTmp.root]
    refine inv_idle _ (hi.logged.congr hroot fun hash hread _ => ?_)
    rw [reports_iff _ _ hn, AList.lookup_insert]
    exact hi.kept _ _ _ data rfl rfl hash hread
  | dropLog d keepCount keepSince stage h =>
    have hn : validRefName name = true := hi.named.resolve_left (by simp)
    have hsame := (@SameRef.refl name d).erase aside_logTmp
    exact inv_idle _ (hi.logged.congr hsame.root fun hash _ hr => hsame.lengthens.reports hn hr)
  | stop refs call => exact inv_idle refs hi.logged

theorem refInv_run {w w' : RefWorld} (hi : w.Inv name) (hrun : GuardedRun name w w') : w'.Inv name := by
  induction hrun with
  | refl => exact hi
  | tail _ hstep ih =>
    obtain ⟨a, hs, hg⟩ := hstep
    exact refInv_step ih hs hg

/-! ## What a collection makes of it -/

theorem refName_root (hn : validRefName name = true) : refName (name ++ dotRoot) = some name := by
  have hlen : name.length ≠ 0 ∧ name.length ≤ 255 := by
    unfold validRefName at hn
    simp only [Bool.and_eq_true, decide_eq_true_eq] at hn
    exact ⟨hn.1.1.1.1, hn.1.1.1.2⟩
  have hsub : (name ++ dotRoot).length - dotRoot.length = name.length := by simp
  unfold refName
  rw [if_neg (by simp [hlen.1]), hsub, List.drop_left, if_neg (by simp), if_neg (by omega), List.take_left]

/-- A root that is reported is one of the roots of a mark. -/
theorem mem_logRoots (st : Store) (refs : Refs) (hash : Bytes) (hread : casTreeRefRead noFaults refs name = .ok hash)
    (hrep : Reports refs name hash) : hash ∈ logRoots noFaults ⟨st, refs⟩ := by
  unfold casTreeRefRead at hread
  split at hread
  · cases hread
  · next hn =>
    split at hread
    · cases hread
    · next data hfile =>
      obtain ⟨dir, rfl, hl⟩ := Option.bind_eq_some_iff.mp hfile
      refine List.mem_flatMap.mpr ⟨name, ?_, hrep⟩
      show name ∈ dir.keys.filterMap refName
      refine List.mem_filterMap.mpr ⟨name ++ dotRoot, ?_, refName_root (by simpa using hn)⟩
      exact AList.lookup_isSome.mp (by rw [hl]; rfl)

/-- What a collection does for the live root: a mark that ends well has it in its set, and `cas_tree_gc` leaves
its copies alone. -/
def KeepsLiveRoot (refs : Refs) (hash : Bytes) : Prop :=
  ∀ cs st, (∀ reachable, markRefs cs noFaults ⟨st, refs⟩ = .ok reachable → hashSetContains reachable hash = true) ∧
    ∀ grace now fn, (casTreeGc cs noFaults ⟨st, refs⟩ grace now fn).2.1.pack = st.pack ∧
      (casTreeGc cs noFaults ⟨st, refs⟩ grace now fn).2.1.loose.lookup hash = st.loose.lookup hash

theorem keepsLiveRoot (refs : Refs) (hash : Bytes) (hread : casTreeRefRead noFaults refs name = .ok hash)
    (hrep : Reports refs name hash) : KeepsLiveRoot refs hash := by
  intro cs st
  have hmarked : ∀ reachable, markRefs cs noFaults ⟨st, refs⟩ = .ok reachable → hashSetContains reachable hash =
    true := by
    intro reachable hm
    have hset := (markRefs_ok cs noFaults ⟨st, refs⟩ reachable hm).2
    rw [hset, decide_eq_true_iff, met_markWalk_iff]
    exact ⟨true, .root (mem_logRoots st refs hash hread hrep)⟩
  refine ⟨hmarked, fun grace now fn => ?_⟩
  unfold casTreeGc
  cases hm : markRefs cs noFaults ⟨st, refs⟩ with
  | error rc => exact ⟨rfl, rfl⟩
  | ok reachable =>
    have hloses := sweep_loses noFaults reachable (gcCutoff grace now) fn st
    refine ⟨hloses.handle, ?_⟩
    rcases hloses.loose hash with hl | ⟨-, -, hs⟩
    · exact hl
    · unfold sweepSpares at hs
      rw [hmarked reachable hm] at hs
      cases hs

end

/-- **The live root is logged in every state of a guarded run**, so that a collection there keeps it: whatever
the order of the calls, and wherever they fail or are cut off. -/
theorem live_root_logged (name : Bytes) (w w' : RefWorld) (hidle : w.call = .idle) (hlogged : RootLogged w.refs name)
    (hrun : GuardedRun name w w') :
    RootLogged w'.refs name ∧
      ∀ hash, casTreeRefRead noFaults w'.refs name = .ok hash → KeepsLiveRoot w'.refs hash := by
  obtain ⟨refs, call⟩ := w
  obtain rfl : call = .idle := hidle
  have hi := refInv_run (inv_idle refs hlogged) hrun
  refine ⟨hi.logged, fun hash hread => ?_⟩
  have hfile : (refFile w'.refs (name ++ dotRoot)).isSome = true := by
    unfold casTreeRefRead at hread
    split at hread
    · cases hread
    · split at hread
      · cases hread
      · next data hf =>
        rw [hf]
        rfl
  obtain ⟨hash', hread', hrep⟩ := hi.logged hfile
  obtain rfl : hash = hash' := Except.ok.inj (hread.symm.trans hread')
  exact keepsLiveRoot w'.refs hash hread hrep

/-! ## A commit that nothing disturbs -/

section
variable (name : Bytes) (c : Commit) (d : RefFiles)

/-- The files when the record is written. -/
def recordedFiles : RefFiles := appendLog name c.record (appendLog name [] ((lockRef name d).erase (rootTmp name)))

/-- The files when the old root is kept as the previous one. -/
def keptFiles : RefFiles :=
  match d.lookup (name ++ dotRoot) with
  | none => d
  | some old => (((d.erase (prevTmp name)).insert (prevTmp name) old).erase (prevTmp name)).insert (name ++ dotPrev) old

/-- The files when the new root has taken the old one's place. -/
def rootedFiles : RefFiles :=
  ((((keptFiles name d).insert (rootTmp name) []).insert (rootTmp name) (c.root ++ [10])).erase (rootTmp name)).insert
    (name ++ dotRoot) (c.root ++ [10])

theorem run_recorded (hn : validRefName name = true) (hv : validHash c.root = true)
    (hg : Guarded name ⟨some (appendLog name [] ((lockRef name d).erase (rootTmp name))), .commit c .opened⟩ .append) :
    GuardedRun name ⟨some d, .idle⟩ ⟨some (recordedFiles name c d), .commit c .logged⟩ := by
  have s0 : RefStep name ⟨some d, .idle⟩ .other ⟨some d, .commit c .begun⟩ := .beginCommit (some d) c hn hv
  have s1 := RefStep.commit d _ c _ _ (@CommitStep.lock name c d)
  have s2 := RefStep.commit _ _ c _ _ (@CommitStep.clear name c (lockRef name d))
  have s3 := RefStep.commit _ _ c _ _ (@CommitStep.openLog name c ((lockRef name d).erase (rootTmp name)))
  have s4 := RefStep.commit _ _ c _ _ (@CommitStep.append name c
    (appendLog name [] ((lockRef name d).erase (rootTmp name))))
  exact ((((Relation.ReflTransGen.refl.tail ⟨_, s0, trivial⟩).tail ⟨_, s1, trivial⟩).tail ⟨_, s2, trivial⟩).tail
    ⟨_, s3, trivial⟩).tail ⟨_, s4, hg⟩

theorem run_kept : GuardedRun name ⟨some d, .commit c .logged⟩ ⟨some (keptFiles name d), .commit c .kept⟩ := by
  unfold keptFiles
  cases hr : d.lookup (name ++ dotRoot) with
  | none => exact Relation.ReflTransGen.single ⟨_, .commit _ _ c _ _ (.noRoot d), trivial⟩
  | some old =>
    have hold : (d.erase (prevTmp name)).lookup (name ++ dotRoot) = some old := by
      rw [AList.lookup_erase_ne aside_prevTmp.root]
      exact hr
    have s1 := RefStep.commit _ _ c _ _ (@CommitStep.clearPrev name c d)
    have s2 := RefStep.commit _ _ c _ _ (@CommitStep.linkPrev name c _ old hold (AList.lookup_erase _ _))
    have s3 := RefStep.commit _ _ c _ _ (@CommitStep.renamePrev name c _ old
      (AList.lookup_insert (s := d.erase (prevTmp name)) (a := prevTmp name) (b := old)))
    exact ((Relation.ReflTransGen.refl.tail ⟨_, s1, trivial⟩).tail ⟨_, s2, trivial⟩).tail ⟨_, s3, trivial⟩

theorem run_rooted : GuardedRun name ⟨some d, .commit c .logged⟩ ⟨some (rootedFiles name c d), .idle⟩ := by
  have s1 := RefStep.commit _ _ c _ _ (@CommitStep.make name c (keptFiles name d))
  have s2 := RefStep.commit _ _ c _ _ (@CommitStep.fill name c ((keptFiles name d).insert (rootTmp name) []))
  have s3 := @RefStep.setRoot name _ c (c.root ++ [10])
    (AList.lookup_insert (s := (keptFiles name d).insert (rootTmp name) []) (a := rootTmp name) (b := c.root ++ [10]))
  exact (((run_kept name c d).tail ⟨_, s1, trivial⟩).tail ⟨_, s2, trivial⟩).tail ⟨_, s3, trivial⟩

theorem files_insert (file data other : Bytes) :
    (d.insert file data).lookup other = if other = file then some data else d.lookup other := by
  split
  · next h =>
    subst h
    exact AList.lookup_insert d
  · next h => exact AList.lookup_insert_ne h

theorem files_erase (file other : Bytes) :
    (d.erase file).lookup other = if other = file then none else d.lookup other := by
  split
  · next h =>
    subst h
    exact AList.lookup_erase _ d
  · next h => exact AList.lookup_erase_ne h

/-- **Left alone, the steps of a commit do what `casTreeRefCommit` does.** -/
theorem rootedFiles_lookup (file : Bytes) : (rootedFiles name c (recordedFiles name c d)).lookup file =
    (setRoot name c.root (keepRoot name (appendLog name c.record (lockRef name d)))).lookup file := by
  have hlock := @SameRef.lock name d
  have hroot : (recordedFiles name c d).lookup (name ++ dotRoot) = d.lookup (name ++ dotRoot) := by
    rw [recordedFiles, (lengthens_appendLog _ _).root, (lengthens_appendLog _ _).root,
      AList.lookup_erase_ne aside_rootTmp.root, hlock.root]
  have hroot' : (appendLog name c.record (lockRef name d)).lookup (name ++ dotRoot) = d.lookup (name ++ dotRoot) := by
    rw [(lengthens_appendLog _ _).root, hlock.root]
  have hlog : name ++ dotLog ≠ rootTmp name := aside_rootTmp.log
  unfold rootedFiles keptFiles setRoot keepRoot
  rw [hroot, hroot']
  cases d.lookup (name ++ dotRoot) with
  | none =>
    simp only [files_insert, files_erase, recordedFiles, appendLog, if_true, if_neg hlog, List.append_nil,
      Option.getD_some]
    unfold rootTmp
    split_ifs <;> rfl
  | some old =>
    simp only [files_insert, files_erase, recordedFiles, appendLog, if_true, if_neg hlog, List.append_nil,
      Option.getD_some]
    unfold rootTmp prevTmp
    split_ifs <;> rfl

end

/-! ## Two runs -/

/-- Any run. -/
def RefRun (name : Bytes) : RefWorld → RefWorld → Prop :=
  Relation.ReflTransGen fun w w' => ∃ a, RefStep name w a w'

theorem GuardedRun.run {name : Bytes} {w w' : RefWorld} (h : GuardedRun name w w') : RefRun name w w' := by
  induction h with
  | refl => exact .refl
  | tail _ hstep ih =>
    obtain ⟨a, hs, -⟩ := hstep
    exact ih.tail ⟨a, hs⟩

instance (s : Bytes) : Decidable (SoundLog s) := inferInstanceAs (Decidable (_ ∧ _))

instance (c : Commit) : Decidable (FirstLineFits c) := inferInstanceAs (Decidable (_ < _))

def firstCommit : Commit := ⟨zeroHash, lit [], 1, 0⟩
def secondCommit : Commit := ⟨oneHash, lit [], 2, 0⟩

/-- The refs directory after the first commit to a new ref. -/
def onceFiles : RefFiles := rootedFiles [109] firstCommit (recordedFiles [109] firstCommit ∅)

theorem run_once : GuardedRun [109] ⟨some ∅, .idle⟩ ⟨some onceFiles, .idle⟩ := by
  have hg : SoundLog [] ∧ FirstLineFits firstCommit := by decide +kernel
  exact (run_recorded [109] firstCommit ∅ (by decide) (by decide) (.inr hg)).trans (run_rooted [109] firstCommit _)

theorem live_root_logged_once : RootLogged (some onceFiles) [109] ∧
    ∀ hash, casTreeRefRead noFaults (some onceFiles) [109] = .ok hash → KeepsLiveRoot (some onceFiles) hash :=
  live_root_logged [109] ⟨some ∅, .idle⟩ ⟨some onceFiles, .idle⟩ rfl (fun h => by cases h) run_once

/-- The directory when a second commit is cut off after it wrote its record, and the log is truncated to its
last entry. -/
def crashedFiles : RefFiles := recordedFiles [109] secondCommit onceFiles

def truncatedFiles : RefFiles :=
  (((((lockRef [109] crashedFiles).erase (logTmp [109])).insert (logTmp [109]) []).insert (logTmp [109])
    secondCommit.record).erase (logTmp [109])).insert ([109] ++ dotLog) secondCommit.record

theorem run_truncated : RefRun [109] ⟨some crashedFiles, .idle⟩ ⟨some truncatedFiles, .idle⟩ := by
  have s0 := @RefStep.beginTruncate [109] crashedFiles 1 0 (by decide) (.inl (by decide))
  have hlog : (lockRef [109] crashedFiles).lookup ([109] ++ dotLog) =
    some (firstCommit.record ++ secondCommit.record) := by
    decide +kernel
  have hlines : truncateLines (fun _ => false) (firstCommit.record ++ secondCommit.record).length 0
      (firstCommit.record ++ secondCommit.record) =
        .ok [(firstCommit.record.dropLast, 1#64), (secondCommit.record.dropLast, 2#64)] := by
    decide +kernel
  have s1 := @RefStep.read [109] (lockRef [109] crashedFiles) 1 0 _ _ _ hlog hlines (by decide +kernel)
  have htext : logText (keptLines 1 0 [(firstCommit.record.dropLast, 1#64), (secondCommit.record.dropLast, 2#64)]) =
      secondCommit.record := by
    decide +kernel
  rw [htext] at s1
  have s2 := RefStep.truncate _ _ 1 0 _ _ (@TruncateStep.clear [109] (lockRef [109] crashedFiles)
    secondCommit.record)
  have s3 := RefStep.truncate _ _ 1 0 _ _ (@TruncateStep.make [109]
    ((lockRef [109] crashedFiles).erase (logTmp [109])) secondCommit.record)
  have s4 := RefStep.truncate _ _ 1 0 _ _ (@TruncateStep.fill [109]
    (((lockRef [109] crashedFiles).erase (logTmp [109])).insert (logTmp [109]) []) secondCommit.record)
  have s5 := @RefStep.setLog [109] _ 1 0 secondCommit.record secondCommit.record
    (AList.lookup_insert (s := ((lockRef [109] crashedFiles).erase (logTmp [109])).insert (logTmp [109]) [])
      (a := logTmp [109]) (b := secondCommit.record))
  exact ((((((Relation.ReflTransGen.refl.tail ⟨_, s0⟩).tail ⟨_, s1⟩).tail ⟨_, s2⟩).tail ⟨_, s3⟩).tail ⟨_, s4⟩).tail
    ⟨_, s5⟩)

/-- The first root is the live one, and the log names the second alone. -/
theorem truncated_after_crash : ∃ w, RefRun [109] ⟨some ∅, .idle⟩ w ∧ w.call = .idle ∧ ¬ RootLogged w.refs [109] := by
  have hg : SoundLog firstCommit.record ∧ FirstLineFits secondCommit := by decide +kernel
  have hopened : (appendLog [109] [] ((lockRef [109] onceFiles).erase (rootTmp [109]))).lookup ([109] ++ dotLog) =
      some firstCommit.record := by decide +kernel
  have hrecorded : GuardedRun [109] ⟨some onceFiles, .idle⟩ ⟨some crashedFiles, .commit secondCommit .logged⟩ := by
    refine run_recorded [109] secondCommit onceFiles (by decide) (by decide) (.inr ?_)
    unfold refFile
    rw [Option.bind_some, hopened]
    exact hg
  have hcrash : RefStep [109] ⟨some crashedFiles, .commit secondCommit .logged⟩ .other ⟨some crashedFiles, .idle⟩ :=
    .stop _ _
  have hrun : RefRun [109] ⟨some ∅, .idle⟩ ⟨some crashedFiles, .idle⟩ :=
    (GuardedRun.run (run_once.trans hrecorded)).tail ⟨_, hcrash⟩
  refine ⟨_, hrun.trans run_truncated, rfl, fun h => ?_⟩
  obtain ⟨hash, hread, hrep⟩ := h (by decide +kernel)
  have hroot : casTreeRefRead noFaults (some truncatedFiles) [109] = .ok zeroHash := by decide +kernel
  obtain rfl : zeroHash = hash := Except.ok.inj (hroot.symm.trans hread)
  revert hrep
  unfold Reports
  decide +kernel

end Smolvfs
