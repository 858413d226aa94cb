import Smolvfs.Lib.Picking
import Smolvfs.GcKeep
import Smolvfs.LogPrune

/-!
# A ref and its log

What commits, truncations and collections make of the log of a ref, when its entries
stand for the members of a list (`LogKept`): a commit adds one to the list, a truncation
picks those that survive, and a collection leaves what the log names alone.
-/

namespace Smolvfs

open Octets Picking Walk

/-! ## What a truncation leaves alone -/

/-- The log of a ref, empty when there is none. -/
def logFile (refs : Refs) (name : Bytes) : Bytes := (refFile refs (name ++ dotLog)).getD []

section
variable (flt : PruneFaults) {name : Bytes} (keepCount keepSince : Int)

theorem lookup_unlinkLogTmp_ne (fails : Bool) (dir : RefFiles) {file : Bytes} (hne : file ≠ logTmp name) :
    (unlinkLogTmp fails name dir).lookup file = dir.lookup file := by
  unfold unlinkLogTmp
  split
  · rfl
  · exact AList.lookup_erase_ne hne

/-- A rewritten log has its lines, and no other file is another. -/
theorem rewriteLog_files (lines : List (Bytes × BitVec 64)) (dir : RefFiles) :
    (∀ file, file ≠ logTmp name → file ≠ name ++ dotLog →
      refFile (rewriteLog flt name keepCount keepSince lines dir).refs file = dir.lookup file) ∧
    (refFile (rewriteLog flt name keepCount keepSince lines dir).refs (name ++ dotLog) = dir.lookup (name ++ dotLog) ∨
      refFile (rewriteLog flt name keepCount keepSince lines dir).refs (name ++ dotLog) =
        some (logText (keptLines keepCount keepSince lines))) := by
  unfold rewriteLog
  simp only []
  split
  · exact ⟨fun _ _ _ => rfl, .inl rfl⟩
  · split
    · exact ⟨fun file htmp _ => lookup_unlinkLogTmp_ne _ _ htmp, .inl (lookup_unlinkLogTmp _ _)⟩
    · cases flt.write with
      | some k =>
        refine ⟨fun file htmp _ => ?_, .inl ?_⟩
        · show (unlinkLogTmp _ _ _).lookup _ = _
          rw [lookup_unlinkLogTmp_ne _ _ htmp, AList.lookup_insert_ne htmp, lookup_unlinkLogTmp_ne _ _ htmp]
        · show (unlinkLogTmp _ _ _).lookup _ = _
          rw [lookup_unlinkLogTmp, AList.lookup_insert_ne logTmp_ne, lookup_unlinkLogTmp]
      | none =>
        simp only []
        split
        · refine ⟨fun file htmp _ => ?_, .inl ?_⟩
          · show (unlinkLogTmp _ _ _).lookup _ = _
            rw [lookup_unlinkLogTmp_ne _ _ htmp, AList.lookup_insert_ne htmp, lookup_unlinkLogTmp_ne _ _ htmp]
          · show (unlinkLogTmp _ _ _).lookup _ = _
            rw [lookup_unlinkLogTmp, AList.lookup_insert_ne logTmp_ne, lookup_unlinkLogTmp]
        · refine ⟨fun file htmp hlog => ?_, .inr (refFile_insert _ _ _)⟩
          show (AList.insert _ _ _).lookup _ = _
          rw [AList.lookup_insert_ne hlog, AList.lookup_erase_ne htmp, AList.lookup_insert_ne htmp,
            lookup_unlinkLogTmp_ne _ _ htmp]

/-- A file that is none of the three a truncation makes or replaces stays as it is. -/
theorem casTreeLogTruncate_other (basedir : Bytes) (refs : Refs) (file : Bytes) (hlock : file ≠ name ++ dotLock)
    (htmp : file ≠ logTmp name) (hlog : file ≠ name ++ dotLog) :
    refFile (casTreeLogTruncate flt basedir refs name keepCount keepSince).refs file = refFile refs file := by
  have hlocked : ∀ dir : RefFiles, (lockRef name dir).lookup file = dir.lookup file := by
    intro dir
    unfold lockRef
    split
    · rfl
    · exact AList.lookup_insert_ne hlock
  unfold casTreeLogTruncate
  split
  · rfl
  · split
    · rfl
    · split
      · rfl
      · cases refs with
        | none => rfl
        | some dir =>
          simp only []
          split
          · rfl
          · split
            · exact hlocked dir
            · split
              · exact hlocked dir
              · split
                · exact hlocked dir
                · split
                  · exact hlocked dir
                  · exact ((rewriteLog_files flt keepCount keepSince _ _).1 file htmp hlog).trans (hlocked dir)

theorem truncate_other_log (basedir : Bytes) (refs : Refs) {other : Bytes} (hne : other ≠ name) :
    logFile (casTreeLogTruncate flt basedir refs name keepCount keepSince).refs other = logFile refs other := by
  unfold logFile
  rw [casTreeLogTruncate_other flt keepCount keepSince basedir refs (other ++ dotLog)
    (ends_ne _ _ _ _ (by decide) (by decide) (by decide))
    (by rw [logTmp]; exact ends_ne _ _ _ _ (by decide) (by decide) (by decide))
    fun heq => hne (List.append_cancel_right heq)]

theorem truncate_root (basedir : Bytes) (refs : Refs) (other : Bytes) :
    refFile (casTreeLogTruncate flt basedir refs name keepCount keepSince).refs (other ++ dotRoot) =
      refFile refs (other ++ dotRoot) :=
  casTreeLogTruncate_other flt keepCount keepSince basedir refs (other ++ dotRoot)
    (ends_ne _ _ _ _ (by decide) (by decide) (by decide))
    (by rw [logTmp]; exact ends_ne _ _ _ _ (by decide) (by decide) (by decide))
    (ends_ne _ _ _ _ (by decide) (by decide) (by decide))

theorem soundLog_logText (bodies : List Bytes) (entries : List LogEntry) (hb : ∀ b ∈ bodies, LineBody b)
    (h : bodies.map parseLogLine = entries.map some) : SoundLog (logText bodies) := by
  refine ⟨by rw [readAll_logText bodies entries hb h], ?_⟩
  rcases List.eq_nil_or_concat bodies with rfl | ⟨init, b, rfl⟩
  · exact .inl rfl
  · refine .inr ?_
    rw [List.concat_eq_append, logText, List.flatMap_append, List.flatMap_singleton, ← List.append_assoc,
      List.getLast?_concat]

/-- **A sound log is sound after a truncation**, whatever fails. -/
theorem casTreeLogTruncate_sound (basedir : Bytes) (refs : Refs) (h : SoundLog (logFile refs name)) :
    SoundLog (logFile (casTreeLogTruncate flt basedir refs name keepCount keepSince).refs name) := by
  by_cases hok : (casTreeLogTruncate flt basedir refs name keepCount keepSince).status = .ok
  · obtain ⟨-, dir, log, lines, rfl, hlog, hs, heq⟩ := casTreeLogTruncate_ok flt keepCount keepSince basedir refs hok
    have hfile : logFile (some dir) name = log := by
      unfold logFile
      rw [show refFile (some dir) (name ++ dotLog) = some log from hlog]
      rfl
    rw [hfile] at h
    have hslurped := slurpLines_spec flt _ _ _ _ (Nat.le_refl _) (Nat.zero_le _) h.1 hs
    rw [heq]
    unfold logFile
    rcases (rewriteLog_files flt keepCount keepSince lines (lockRef name dir)).2 with hsame | hnew
    · rw [hsame, lockRef_log, hlog]
      exact h
    · rw [hnew]
      exact soundLog_logText _ _ (keptLines_bodies hslurped.bodies) (hslurped.kept keepCount keepSince)
  · unfold logFile
    rw [casTreeLogTruncate_kept flt keepCount keepSince basedir refs hok]
    exact h

end

/-- A commit with a short comment of one line. -/
theorem shortCommit_comment {root : Bytes} {comment : CStr} {timeS timeNs : Int} (hv : validHash root = true)
    (hline : (10 : UInt8) ∉ comment.bytes) (hlen : comment.bytes.length ≤ 100) (hs : -2 ^ 63 ≤ timeS ∧ timeS < 2 ^ 63)
    (hns : -2 ^ 31 ≤ timeNs ∧ timeNs < 2 ^ 31) : ShortCommit ⟨root, comment, timeS, timeNs⟩ where
  oneLine := hline
  timeS := hs
  timeNs := hns
  fits := by
    have h1 := Numeral.length_printInt_le timeS 19 (by omega) (by omega)
    have h2 := Numeral.length_printInt_le timeNs 10 (by omega) (by omega)
    have hroot := ((validHash_iff root).mp hv).1
    show (logLine root timeS timeNs _).length < LOG_LINE
    unfold logLine
    simp only [List.length_append, List.length_cons, List.length_nil, hroot]
    unfold LOG_LINE
    omega

/-! ## A log that stands for a list -/

/-- The entries of a ref's log are of the members of a list, one by one, and the last one is the ref's root. -/
structure LogKept {α : Type} (R : LogEntry → α → Prop) (refs : Refs) (ref : Bytes) (l : List α) : Prop where
  sound : SoundLog (logFile refs ref)
  entries : List.Forall₂ R (readAll (logFile refs ref)).1 l
  root : ∀ e, (readAll (logFile refs ref)).1.getLast? = some e →
    validRefName ref = true ∧ validHash e.hash = true ∧ refFile refs (ref ++ dotRoot) = some (e.hash ++ [10])

/-- The log of a ref is read as its file is. -/
theorem casTreeLogRead_logFile {refs : Refs} {ref : Bytes} (hn : validRefName ref = true)
    (h : (refFile refs (ref ++ dotLog)).isSome = true) :
    casTreeLogRead noFaults refs ref = readAll (logFile refs ref) := by
  obtain ⟨log, hlog⟩ := Option.isSome_iff_exists.mp h
  rw [casTreeLogRead_noFaults refs ref log hn hlog, logFile, hlog]
  rfl

/-- A log with an entry is a file. -/
theorem isSome_log {refs : Refs} {ref : Bytes} (h : (readAll (logFile refs ref)).1 ≠ []) :
    (refFile refs (ref ++ dotLog)).isSome = true := by
  by_contra hnone
  rw [Bool.not_eq_true, Option.isSome_eq_false_iff, Option.isNone_iff_eq_none] at hnone
  apply h
  rw [logFile, hnone]
  rfl

/-- An entry that is read is one of the log file. -/
theorem mem_logFile {refs : Refs} {ref : Bytes} {e : LogEntry} (he : e ∈ (casTreeLogRead noFaults refs ref).1) :
    e ∈ (readAll (logFile refs ref)).1 := by
  unfold casTreeLogRead at he
  split at he
  · cases he
  · cases hlog : refFile refs (ref ++ dotLog) with
    | none =>
      rw [hlog] at he
      cases he
    | some log =>
      rw [hlog] at he
      unfold logFile
      rw [hlog, Option.getD_some, ← logRead_noFaults ref _ 0 log (Nat.le_refl _)]
      exact he

theorem forall₂_getLast? {α β : Type} {R : α → β → Prop} {l : List α} {m : List β} (h : List.Forall₂ R l m)
    (hne : m ≠ []) : ∃ a b, l.getLast? = some a ∧ m.getLast? = some b ∧ R a b := by
  induction h with
  | nil => exact absurd rfl hne
  | @cons a b l m hab hlm ih =>
    cases hlm with
    | nil => exact ⟨a, b, rfl, rfl, hab⟩
    | cons hab' hlm' =>
      obtain ⟨x, y, hx, hy, hxy⟩ := ih (by simp)
      exact ⟨x, y, by rw [List.getLast?_cons_cons]; exact hx, by rw [List.getLast?_cons_cons]; exact hy, hxy⟩

/-- The members that are to survive, by the time of each. -/
def prunedBy {α : Type} (time : α → BitVec 64) (keepCount keepSince : Int) (l : List α) : List α :=
  pick (fun i a => survives keepCount keepSince l.length i (time a)) l

/-- The last one is. -/
theorem getLast?_prunedBy {α : Type} (time : α → BitVec 64) (keepCount keepSince : Int) (l : List α) :
    (prunedBy time keepCount keepSince l).getLast? = l.getLast? := by
  apply getLast?_pick
  intro a ha
  have hpos : 0 < l.length := List.length_pos_of_ne_nil (by rintro rfl; cases ha)
  unfold survives
  rw [Bool.or_eq_true, decide_eq_true_eq (p := _ = _)]
  exact .inr (by omega)

section
variable {α : Type} {R R' : LogEntry → α → Prop} {refs refs' : Refs} {ref : Bytes} {l : List α}

theorem logKept_new (ref : Bytes) : LogKept R none ref [] where
  sound := ⟨rfl, .inl rfl⟩
  entries := .nil
  root _ he := nomatch he

theorem LogKept.imp (h : LogKept R refs ref l) (himp : ∀ e a, R e a → R' e a) : LogKept R' refs ref l where
  sound := h.sound
  entries := h.entries.imp himp
  root := h.root

/-- The log and the root file are what counts. -/
theorem LogKept.congr (h : LogKept R refs ref l) (hlog : logFile refs' ref = logFile refs ref)
    (hroot : refFile refs' (ref ++ dotRoot) = refFile refs (ref ++ dotRoot)) : LogKept R refs' ref l where
  sound := hlog.symm ▸ h.sound
  entries := hlog.symm ▸ h.entries
  root := by
    rw [hlog, hroot]
    exact h.root

/-- What the last member's entry is. -/
theorem LogKept.last (h : LogKept R refs ref l) (hne : l ≠ []) : ∃ e a, l.getLast? = some a ∧ R e a ∧
    casTreeRefRead noFaults refs ref = .ok e.hash := by
  obtain ⟨e, a, he, ha, hR⟩ := forall₂_getLast? h.entries hne
  obtain ⟨hn, hv, hroot⟩ := h.root e he
  exact ⟨e, a, ha, hR, casTreeRefRead_written refs e.hash hn hv hroot⟩

/-- A member has an entry. -/
theorem LogKept.entry (h : LogKept R refs ref l) {a : α} (ha : a ∈ l) : ∃ e ∈ (readAll (logFile refs ref)).1, R e a := by
  obtain ⟨i, hi, rfl⟩ := List.mem_iff_getElem.mp ha
  have hlen := h.entries.length_eq
  exact ⟨_, List.getElem_mem (by omega), h.entries.get (by omega) hi⟩

/-- **The log reads as the list.** -/
theorem LogKept.reads (h : LogKept R refs ref l) (hne : l ≠ []) :
    ∃ entries, casTreeLogRead noFaults refs ref = (entries, .ok) ∧ List.Forall₂ R entries l := by
  obtain ⟨e, a, he, -, -⟩ := forall₂_getLast? h.entries hne
  obtain ⟨hn, -, -⟩ := h.root e he
  refine ⟨_, ?_, h.entries⟩
  rw [casTreeLogRead_logFile hn (isSome_log (by rintro hnil; rw [hnil] at he; cases he)), ← h.sound.1]

/-- **A commit** adds a member. -/
theorem LogKept.commit (h : LogKept R refs ref l) {c : Commit} {a : α} (hc : ShortCommit c) (hR : R c.reported a)
    (hrun : casTreeRefCommit refs ref c.root c.comment.bytes c.timeS c.timeNs = .ok refs') :
    LogKept R refs' ref (l ++ [a]) := by
  obtain ⟨hn, hvalid, hlog, hroot⟩ := casTreeRefCommit_files refs refs' ref c.root _ _ _ hrun
  have hfile : logFile refs' ref = logFile refs ref ++ c.record := by
    unfold logFile
    rw [hlog]
    rfl
  have hrecord := readAll_records [c] [] (fun c hm => List.mem_singleton.mp hm ▸ hvalid)
    fun c hm => List.mem_singleton.mp hm ▸ hc
  rw [readAll_nil, List.append_nil, List.append_nil, List.flatMap_singleton] at hrecord
  have hread := (readAll_append (logFile refs ref) c.record).2 h.sound
  rw [← hfile, hrecord] at hread
  have hentries : (readAll (logFile refs' ref)).1 = (readAll (logFile refs ref)).1 ++ [c.reported] := by
    rw [hread]
    rfl
  refine ⟨⟨by rw [hread], .inr ?_⟩, ?_, ?_⟩
  · rw [hfile]
    unfold Commit.record
    rw [logLine_eq, logBody_append, ← List.append_assoc, List.getLast?_concat]
  · rw [hentries]
    exact List.rel_append (R := R) h.entries (.cons hR .nil)
  · intro e he
    rw [hentries, List.getLast?_concat] at he
    obtain rfl := Option.some.inj he
    exact ⟨hn, hvalid, hroot⟩

theorem LogKept.commit_other (h : LogKept R refs ref l) {other root comment : Bytes} {timeS timeNs : Int}
    (hrun : casTreeRefCommit refs other root comment timeS timeNs = .ok refs') (hne : ref ≠ other) :
    LogKept R refs' ref l := by
  refine h.congr ?_ (commit_other_root hrun ref hne)
  unfold logFile
  rw [commit_other_log hrun ref hne]

/-- **A truncation that succeeds** leaves the members that are to survive. -/
theorem LogKept.prune (h : LogKept R refs ref l) (time : α → BitVec 64) (htime : ∀ e a, R e a → e.timeS = time a)
    {flt : PruneFaults} (hread : ∀ n, flt.readLine n = false) {basedir : Bytes} {keepCount keepSince : Int}
    (hok : (casTreeLogTruncate flt basedir refs ref keepCount keepSince).status = .ok) :
    LogKept R (casTreeLogTruncate flt basedir refs ref keepCount keepSince).refs ref
      (prunedBy time keepCount keepSince l) := by
  obtain ⟨-, dir, log, lines, hdir, hlog, -, -⟩ := casTreeLogTruncate_ok flt keepCount keepSince basedir refs hok
  have hn : validRefName ref = true := by
    by_contra hbad
    unfold casTreeLogTruncate at hok
    rw [if_pos (Bool.eq_false_of_not_eq_true hbad)] at hok
    cases hok
  have hfile : (refFile refs (ref ++ dotLog)).isSome = true := by
    rw [hdir, show refFile (some dir) (ref ++ dotLog) = some log from hlog]
    rfl
  have hents := casTreeLogRead_logFile hn hfile
  have hends : (casTreeLogRead noFaults refs ref).2 = .ok := by
    rw [hents]
    exact h.sound.1
  have hexact : PrunesExactly refs ref keepCount keepSince
      (casTreeLogTruncate flt basedir refs ref keepCount keepSince) :=
    casTreeLogTruncate_exact hends flt basedir
      fun _ ⟨n, _, _, hf⟩ => absurd hf (by rw [hread n]; exact Bool.noConfusion)
  obtain ⟨hpruned, -⟩ := hexact.pruned hok
  rw [hents] at hpruned
  obtain ⟨-, dir', log', hdir', hlog', -⟩ := casTreeLogRead_ok (by rw [hpruned])
  have hfile' : (refFile (casTreeLogTruncate flt basedir refs ref keepCount keepSince).refs
      (ref ++ dotLog)).isSome = true := by
    rw [hdir', show refFile (some dir') (ref ++ dotLog) = some log' from hlog']
    rfl
  rw [casTreeLogRead_logFile hn hfile'] at hpruned
  have hentries := congrArg Prod.fst hpruned
  refine ⟨casTreeLogTruncate_sound flt keepCount keepSince basedir refs h.sound, ?_, ?_⟩
  · rw [hentries]
    unfold survivors prunedBy
    rw [h.entries.length_eq]
    have hsame : ∀ i e a, R e a → survives keepCount keepSince l.length i e.timeS =
        survives keepCount keepSince l.length i (time a) := by
      intro i e a hR
      rw [htime e a hR]
    exact forall₂_pick h.entries hsame
  · intro e he
    rw [show (readAll (logFile _ ref)).1 = prunedBy LogEntry.timeS keepCount keepSince _ from hentries,
      getLast?_prunedBy] at he
    rw [truncate_root flt keepCount keepSince basedir refs ref]
    exact h.root e he

/-- A truncation of this log that fails, or of another. -/
theorem LogKept.prune_kept (h : LogKept R refs ref l) {flt : PruneFaults} {basedir name : Bytes}
    {keepCount keepSince : Int}
    (hno : ref = name → (casTreeLogTruncate flt basedir refs name keepCount keepSince).status ≠ .ok) :
    LogKept R (casTreeLogTruncate flt basedir refs name keepCount keepSince).refs ref l := by
  refine h.congr ?_ (truncate_root flt keepCount keepSince basedir refs ref)
  by_cases heq : ref = name
  · subst heq
    unfold logFile
    rw [casTreeLogTruncate_kept flt keepCount keepSince basedir refs (hno rfl)]
  · exact truncate_other_log flt keepCount keepSince basedir refs heq

/-! ## What a collection goes by -/

/-- What a log names is a root of the mark. -/
theorem LogKept.roots (h : LogKept R refs ref l) {e : LogEntry} (he : e ∈ (readAll (logFile refs ref)).1) (st : Store) :
    e.hash ∈ logRoots noFaults ⟨st, refs⟩ := by
  obtain ⟨last, hlast⟩ := Option.isSome_iff_exists.mp (List.getLast?_isSome.mpr (List.ne_nil_of_mem he))
  obtain ⟨hn, -, hroot⟩ := h.root last hlast
  obtain ⟨dir, rfl, hl⟩ := Option.bind_eq_some_iff.mp hroot
  refine List.mem_flatMap.mpr ⟨ref, ?_, ?_⟩
  · show ref ∈ dir.keys.filterMap refName
    exact List.mem_filterMap.mpr
      ⟨ref ++ dotRoot, AList.lookup_isSome.mp (by rw [hl]; rfl), refName_root hn⟩
  · rw [casTreeLogRead_logFile hn (isSome_log (List.ne_nil_of_mem he))]
    exact List.mem_map_of_mem he

end

/-- **A collection leaves the copies of what a log names alone**, however it ends. -/
theorem gc_logRoot (cs : Codecs) (ct : CasTree) (grace now : Int) (fn : Nat → Bytes → Bool) {hash : Bytes}
    (h : hash ∈ logRoots noFaults ct) :
    (casTreeGc cs noFaults ct grace now fn).2.1.pack = ct.store.pack ∧
      (casTreeGc cs noFaults ct grace now fn).2.1.loose.lookup hash = ct.store.loose.lookup hash := by
  unfold casTreeGc
  cases hm : markRefs cs noFaults ct with
  | error rc => exact ⟨rfl, rfl⟩
  | ok reachable =>
    have hloses := sweep_loses noFaults reachable (gcCutoff grace now) fn ct.store
    refine ⟨hloses.handle, ?_⟩
    rcases hloses.loose hash with hl | ⟨-, -, hs⟩
    · exact hl
    · have hmarked : hashSetContains reachable hash = true := by
        rw [(markRefs_ok cs noFaults ct reachable hm).2, decide_eq_true_iff, met_markWalk_iff]
        exact ⟨true, .root h⟩
      unfold sweepSpares at hs
      rw [hmarked] at hs
      cases hs

/-- What a collection leaves under an address reads as before. -/
theorem gc_left_reads (cs : Codecs) (ct : CasTree) (grace now : Int) (fn : Nat → Bytes → Bool) {hash : Bytes}
    (hv : validHash hash = true) (hleft : ¬ Fresh (casTreeGc cs noFaults ct grace now fn).2.1 hash) :
    ¬ Fresh ct.store hash ∧ casOpenObject cs noFaults (casTreeGc cs noFaults ct grace now fn).2.1 hash =
      casOpenObject cs noFaults ct.store hash := by
  unfold casTreeGc at hleft ⊢
  split at hleft
  · exact ⟨hleft, rfl⟩
  · next reachable _ =>
    have hloses := sweep_loses noFaults reachable (gcCutoff grace now) fn ct.store
    by_cases hp : ct.store.packed hash = true
    · refine ⟨fun hf => ?_, casOpenObject_of_same_pack cs ct.store hash hv _ hloses.handle hp⟩
      rw [hf.2] at hp
      cases hp
    · rcases hloses.loose hash with hl | ⟨hgone, -⟩
      · refine ⟨fun hf => hleft ?_, casOpenObject_congr cs ct.store hash noFaults _ hloses.handle hl⟩
        refine ⟨?_, ?_⟩
        · unfold Store.hasLoose
          rw [hl]
          exact hf.1
        · unfold Store.packed
          rw [hloses.handle]
          exact hf.2
      · refine absurd ⟨?_, ?_⟩ hleft
        · unfold Store.hasLoose
          rw [hgone]
          rfl
        · unfold Store.packed
          rw [hloses.handle]
          simpa [Store.packed] using hp

end Smolvfs
