import Smolvfs.Lib.Picking
import Smolvfs.RefRuns
import Smolvfs.TornLog

/-!
# What a truncation leaves

`cas_tree_log_truncate` as a whole: the lines of the log with their times, the decision
which survive, and the new log, which takes the old one's name in the last step.  Every
call on the way may fail (`PruneFaults`).

`log_truncate_exact_iff`: whatever fails, the log is left with exactly the survivors or
as it was, if and only if no read of the log fails before its last line, or no entry is
to go.  The loop over the lines takes a read that fails for the end of the file.
-/

namespace Smolvfs

open Octets Numeral Picking

/-- What fails, of what a truncation calls. -/
structure PruneFaults where
  openLock : Bool
  flock : Bool
  openLog : Bool
  readLine : Nat → Bool
  noMem : Nat → Bool
  unlinkTmp : Bool
  makeTmp : Bool
  /-- `fprintf` or `fflush`, with so many octets of the text in the file -/
  write : Option Nat
  rename : Bool
  /-- the `unlink` after a failure -/
  dropTmp : Bool

/-- Nothing but some reads of the log. -/
def onlyReads (fault : Nat → Bool) : PruneFaults :=
  ⟨false, false, false, fault, fun _ => false, false, false, none, false, false⟩

def REF_PATH_MAX : Nat := 512

/-- `ref_path`, without the path: whether it fits. -/
def refPathFits (basedir name ext : Bytes) : Bool :=
  decide (basedir.length + (lit ['/', 'r', 'e', 'f', 's', '/']).bytes.length + name.length + ext.length < REF_PATH_MAX)

/-- The paths a truncation composes. -/
def prunePathsFit (basedir name : Bytes) : Bool :=
  refPathFits basedir name dotLog && refPathFits basedir name dotLock && refPathFits basedir name (dotLog ++ dotTmp)

/-- So many lines fill the last capacity that an `int` can double to the next. -/
def LINES_MAX : Nat := 2 ^ 30

/-- The loop that reads the lines and their times, from line `n` on. -/
def slurpLines (flt : PruneFaults) : Nat → Nat → Bytes → Except Status (List (Bytes × BitVec 64))
  | 0, _, _ => .ok []
  | fuel + 1, n, s =>
    if s = [] then .ok []
    else if flt.readLine n then .ok []
    else
      let chunk := logChunk s
      let line := (CStr.ofBuf chunk).bytes
      if line ≠ [] ∧ line.getLast? ≠ some 10 then
        -- a torn line at the end is dropped
        if chunk.length < LOG_LINE - 1 ∧ (10 : UInt8) ∉ chunk then .ok [] else .error .err
      else
        match logLineTime line.dropLast with
        | none => .error .err
        | some t =>
          if n = LINES_MAX ∨ flt.noMem n = true then .error .enomem
          else (slurpLines flt fuel (n + 1) (s.drop chunk.length)).map ((line.dropLast, t) :: ·)

/-- `gone` -/
def linesGone (keepCount keepSince : Int) (lines : List (Bytes × BitVec 64)) : Nat :=
  lines.zipIdx.countP fun p => !logKeeps keepCount keepSince lines.length p.2 p.1.2

/-- What `cas_tree_log_truncate` returns, `*removed` when it is set, and the refs directory then. -/
structure Pruned where
  status : Status
  removed : Option Nat
  refs : Refs

def unlinkLogTmp (fails : Bool) (name : Bytes) (dir : RefFiles) : RefFiles :=
  if fails then dir else dir.erase (logTmp name)

/-- The second half, with the lines in memory. -/
def rewriteLog (flt : PruneFaults) (name : Bytes) (keepCount keepSince : Int) (lines : List (Bytes × BitVec 64))
    (dir : RefFiles) : Pruned :=
  let gone := linesGone keepCount keepSince lines
  if gone = 0 then ⟨.ok, some 0, some dir⟩
  else
    let dir := unlinkLogTmp flt.unlinkTmp name dir
    if flt.makeTmp then ⟨.eio, none, some dir⟩
    else
      let text := logText (keptLines keepCount keepSince lines)
      match flt.write with
      | some k => ⟨.eio, none, some (unlinkLogTmp flt.dropTmp name (dir.insert (logTmp name) (text.take k)))⟩
      | none =>
        let dir := dir.insert (logTmp name) text
        if flt.rename then ⟨.eio, none, some (unlinkLogTmp flt.dropTmp name dir)⟩
        else ⟨.ok, some gone, some ((dir.erase (logTmp name)).insert (name ++ dotLog) text)⟩

/-- `cas_tree_log_truncate` -/
def casTreeLogTruncate (flt : PruneFaults) (basedir : Bytes) (refs : Refs) (name : Bytes) (keepCount keepSince : Int) :
    Pruned :=
  if validRefName name = false then ⟨.err, none, refs⟩
  else if keepCount ≤ 0 ∧ keepSince ≤ 0 then ⟨.err, none, refs⟩
  else if prunePathsFit basedir name = false then ⟨.err, none, refs⟩
  else
    match refs with
    | none => ⟨.eio, none, none⟩
    | some dir =>
      if flt.openLock then ⟨.eio, none, some dir⟩
      else
        let dir := lockRef name dir
        if flt.flock then ⟨.eio, none, some dir⟩
        else
          match dir.lookup (name ++ dotLog) with
          | none => ⟨.enotfound, none, some dir⟩
          | some log =>
            if flt.openLog then ⟨.enotfound, none, some dir⟩
            else
              match slurpLines flt log.length 0 log with
              | .error rc => ⟨rc, none, some dir⟩
              | .ok lines => rewriteLog flt name keepCount keepSince lines dir

/-! ## What it is for -/

/-- Among the last `keep_count`, not older than `keep_since`, or the newest. -/
def survives (keepCount keepSince : Int) (count i : Nat) (timeS : BitVec 64) : Bool :=
  decide (0 < keepCount ∧ (count : Int) - keepCount ≤ i) || decide (0 < keepSince ∧ keepSince ≤ timeS.toInt) ||
    decide (i + 1 = count)

def survivors (keepCount keepSince : Int) (entries : List LogEntry) : List LogEntry :=
  pick (fun i e => survives keepCount keepSince entries.length i e.timeS) entries

/-- A truncation that succeeds leaves the survivors and says how many went; one that fails leaves all. -/
structure PrunesExactly (refs : Refs) (name : Bytes) (keepCount keepSince : Int) (r : Pruned) : Prop where
  pruned : r.status = .ok →
    casTreeLogRead noFaults r.refs name = (survivors keepCount keepSince (casTreeLogRead noFaults refs name).1, .ok) ∧
      r.removed = some ((casTreeLogRead noFaults refs name).1.length -
        (survivors keepCount keepSince (casTreeLogRead noFaults refs name).1).length)
  kept : r.status ≠ .ok → casTreeLogRead noFaults r.refs name = casTreeLogRead noFaults refs name

/-! ## The lines -/

/-- The code's decision is the one that is asked for. -/
theorem logKeeps_eq (keepCount keepSince : Int) (count i : Nat) (t : BitVec 64) (hi : i < count) :
    logKeeps keepCount keepSince count i t = survives keepCount keepSince count i t := by
  unfold logKeeps survives
  rw [Bool.eq_iff_iff]
  simp only [Bool.or_eq_true, Bool.and_eq_true, decide_eq_true_eq]
  split <;> omega

/-- What the loop has read, of a log that is read to its end: the lines of its entries, up to a read
that fails. -/
structure Slurped (fault : Nat → Bool) (n : Nat) (entries : List LogEntry) (lines : List (Bytes × BitVec 64)) :
    Prop where
  bodies : ∀ p ∈ lines, LineBody p.1
  parsed : (lines.map fun p => (parseLogLine p.1, p.2)) =
    (entries.take lines.length).map fun e => (some e, e.timeS)
  within : lines.length ≤ entries.length
  read : ∀ i < lines.length, fault (n + i) = false
  cut : lines.length < entries.length → fault (n + lines.length) = true ∧ n + lines.length ≤ LINES_MAX

theorem Slurped.stop {fault : Nat → Bool} {n : Nat} {entries : List LogEntry}
    (h : entries ≠ [] → fault n = true ∧ n ≤ LINES_MAX) : Slurped fault n entries [] where
  bodies := by simp
  parsed := rfl
  within := Nat.zero_le _
  read := by simp
  cut := fun hlt => h (List.ne_nil_of_length_pos hlt)

theorem Slurped.line {fault : Nat → Bool} {n : Nat} {entries : List LogEntry} {lines : List (Bytes × BitVec 64)}
    (h : Slurped fault (n + 1) entries lines) (body : Bytes) (e : LogEntry) (hbody : LineBody body)
    (hparse : parseLogLine body = some e) (hread : fault n = false) :
    Slurped fault n (e :: entries) ((body, e.timeS) :: lines) where
  bodies := by
    intro p hp
    rcases List.mem_cons.mp hp with rfl | hp
    · exact hbody
    · exact h.bodies p hp
  parsed := by
    rw [List.map_cons, List.length_cons, List.take_succ_cons, List.map_cons, h.parsed, hparse]
  within := Nat.succ_le_succ h.within
  read := by
    intro i hi
    cases i with
    | zero => exact hread
    | succ i =>
      have := h.read i (Nat.lt_of_succ_lt_succ hi)
      rwa [Nat.add_right_comm] at this
  cut := by
    intro hlt
    have := h.cut (Nat.lt_of_succ_lt_succ hlt)
    rwa [Nat.add_right_comm] at this

/-- One turn over a log that is read to its end: the last line is torn, or the line is an entry's. -/
theorem readAll_ok (s : Bytes) (hs : s ≠ []) (h : (readAll s).2 = .ok) :
    (((CStr.ofBuf (logChunk s)).bytes ≠ [] ∧ (CStr.ofBuf (logChunk s)).bytes.getLast? ≠ some 10) ∧
      ((logChunk s).length < LOG_LINE - 1 ∧ (10 : UInt8) ∉ logChunk s) ∧ (readAll s).1 = []) ∨
    (¬ ((CStr.ofBuf (logChunk s)).bytes ≠ [] ∧ (CStr.ofBuf (logChunk s)).bytes.getLast? ≠ some 10) ∧
      LineBody (CStr.ofBuf (logChunk s)).bytes.dropLast ∧
      ∃ e, parseLogLine (CStr.ofBuf (logChunk s)).bytes.dropLast = some e ∧
        (readAll s).1 = e :: (readAll (s.drop (logChunk s).length)).1 ∧
        (readAll (s.drop (logChunk s).length)).2 = .ok) := by
  rw [readAll_eq s hs] at h ⊢
  simp only [] at h ⊢
  by_cases hline : (CStr.ofBuf (logChunk s)).bytes ≠ [] ∧ (CStr.ofBuf (logChunk s)).bytes.getLast? ≠ some 10
  · rw [if_pos hline] at h ⊢
    by_cases hfeof : (logChunk s).length < LOG_LINE - 1 ∧ (10 : UInt8) ∉ logChunk s
    · rw [if_pos hfeof]
      exact .inl ⟨hline, hfeof, rfl⟩
    · rw [if_neg hfeof] at h
      cases h
  · rw [if_neg hline] at h ⊢
    cases hparse : parseLogLine (CStr.ofBuf (logChunk s)).bytes.dropLast with
    | none =>
      rw [hparse] at h
      cases h
    | some e =>
      rw [hparse] at h
      have hne : (CStr.ofBuf (logChunk s)).bytes ≠ [] := by
        intro hnil
        rw [hnil] at hparse
        cases hparse
      exact .inr ⟨hline, lineBody_chunk s hne, e, rfl, rfl, h⟩

section
variable (flt : PruneFaults)

theorem slurpLines_spec (fuel n : Nat) (s : Bytes) (lines : List (Bytes × BitVec 64)) (hf : s.length ≤ fuel)
    (hn : n ≤ LINES_MAX) (hread : (readAll s).2 = .ok) (h : slurpLines flt fuel n s = .ok lines) :
    Slurped flt.readLine n (readAll s).1 lines := by
  induction fuel generalizing n s lines with
  | zero =>
    obtain rfl := Except.ok.inj h
    obtain rfl : s = [] := List.eq_nil_of_length_eq_zero (by omega)
    exact .stop fun hne => absurd rfl hne
  | succ fuel ih =>
    unfold slurpLines at h
    split at h
    · next hs =>
      obtain rfl := Except.ok.inj h
      subst hs
      exact .stop fun hne => absurd rfl hne
    · next hs =>
      split at h
      · next hfault =>
        obtain rfl := Except.ok.inj h
        exact .stop fun _ => ⟨hfault, hn⟩
      · next hfault =>
        simp only [] at h
        rcases readAll_ok s hs hread with ⟨hline, hfeof, hnone⟩ | ⟨hline, hbody, e, hparse, hents, hrest⟩
        · rw [if_pos hline, if_pos hfeof] at h
          obtain rfl := Except.ok.inj h
          exact .stop fun hne => absurd hnone hne
        · rw [if_neg hline, logLineTime_of_parse _ e hparse] at h
          simp only [] at h
          split at h
          · cases h
          · next hmem =>
            have hpos := logChunk_length_pos s hs
            have hdrop : (s.drop (logChunk s).length).length = s.length - (logChunk s).length := List.length_drop
            have hlt : n + 1 ≤ LINES_MAX := by
              have hne : n ≠ LINES_MAX := fun heq => hmem (.inl heq)
              omega
            cases hmore : slurpLines flt fuel (n + 1) (s.drop (logChunk s).length) with
            | error rc =>
              rw [hmore] at h
              cases h
            | ok more =>
              rw [hmore] at h
              obtain rfl := Except.ok.inj h
              have hrec := ih (n + 1) _ more (by omega) hlt hrest hmore
              rw [hents]
              exact hrec.line _ e hbody hparse (Bool.eq_false_of_not_eq_true hfault)

theorem slurpLines_error (fuel n : Nat) (s : Bytes) (rc : Status) (h : slurpLines flt fuel n s = .error rc) :
    rc ≠ .ok := by
  induction fuel generalizing n s with
  | zero => cases h
  | succ fuel ih =>
    unfold slurpLines at h
    split at h
    · cases h
    · split at h
      · cases h
      · simp only [] at h
        split at h
        · split at h
          · cases h
          · cases h
            exact Status.noConfusion
        · split at h
          · cases h
            exact Status.noConfusion
          · split at h
            · cases h
              exact Status.noConfusion
            · cases hmore : slurpLines flt fuel (n + 1) (s.drop (logChunk s).length) with
              | error rc' =>
                rw [hmore] at h
                cases h
                exact ih _ _ hmore
              | ok more =>
                rw [hmore] at h
                cases h

/-- With memory for them, the lines are read up to a read that fails. -/
theorem slurpLines_reads (fault : Nat → Bool) (fuel n : Nat) (s : Bytes) (hread : (readAll s).2 = .ok)
    (hfault : ∃ k, n ≤ k ∧ k ≤ LINES_MAX ∧ fault k = true) :
    ∃ lines, slurpLines (onlyReads fault) fuel n s = .ok lines := by
  induction fuel generalizing n s with
  | zero => exact ⟨_, rfl⟩
  | succ fuel ih =>
    unfold slurpLines
    split
    · exact ⟨_, rfl⟩
    · next hs =>
      split
      · exact ⟨_, rfl⟩
      · next hok =>
        obtain ⟨k, hnk, hk, hfk⟩ := hfault
        have hne : n ≠ k := by
          rintro rfl
          exact hok hfk
        simp only []
        rcases readAll_ok s hs hread with ⟨hline, hfeof, -⟩ | ⟨hline, -, e, hparse, -, hrest⟩
        · rw [if_pos hline, if_pos hfeof]
          exact ⟨_, rfl⟩
        · rw [if_neg hline, logLineTime_of_parse _ e hparse]
          simp only []
          obtain ⟨more, hmore⟩ := ih (n + 1) (s.drop (logChunk s).length) hrest ⟨k, by omega, hk, hfk⟩
          rw [if_neg, hmore]
          · exact ⟨_, rfl⟩
          · rintro (heq | hmem)
            · omega
            · exact Bool.false_ne_true hmem

end

/-! ## The decision -/

section
variable {keepCount keepSince : Int} {entries : List LogEntry} {lines : List (Bytes × BitVec 64)} {fault : Nat → Bool}

theorem Slurped.taken (h : Slurped fault 0 entries lines) : (entries.take lines.length).length = lines.length := by
  rw [List.length_take, Nat.min_eq_left h.within]

theorem keptLines_eq : keptLines keepCount keepSince lines =
    (pick (fun i p => logKeeps keepCount keepSince lines.length i p.2) lines).map Prod.fst := by
  unfold keptLines pick
  rw [List.map_map]
  rfl

/-- The lines that are written parse as the survivors of the entries that were read. -/
theorem Slurped.kept (h : Slurped fault 0 entries lines) (keepCount keepSince : Int) :
    (keptLines keepCount keepSince lines).map parseLogLine =
    (survivors keepCount keepSince (entries.take lines.length)).map some := by
  have hlines := pick_map (fun i (q : Option LogEntry × BitVec 64) => logKeeps keepCount keepSince lines.length i q.2)
    (fun p : Bytes × BitVec 64 => (parseLogLine p.1, p.2)) lines
  have hents := pick_map (fun i (q : Option LogEntry × BitVec 64) => logKeeps keepCount keepSince lines.length i q.2)
    (fun e : LogEntry => (some e, e.timeS)) (entries.take lines.length)
  rw [h.parsed, hents] at hlines
  have hfst := congrArg (List.map Prod.fst) hlines
  rw [List.map_map, List.map_map] at hfst
  have hrule : survivors keepCount keepSince (entries.take lines.length) =
      pick (fun i e => logKeeps keepCount keepSince lines.length i e.timeS) (entries.take lines.length) := by
    apply pick_congr
    intro i hi
    rw [h.taken] at hi ⊢
    exact (logKeeps_eq keepCount keepSince _ i _ hi).symm
  rw [keptLines_eq, List.map_map, hrule]
  exact hfst.symm

theorem Slurped.gone (h : Slurped fault 0 entries lines) (keepCount keepSince : Int) :
    (survivors keepCount keepSince (entries.take lines.length)).length + linesGone keepCount keepSince lines =
      lines.length := by
  have hlen := congrArg List.length (h.kept keepCount keepSince)
  have hpick := length_pick (fun i (p : Bytes × BitVec 64) => logKeeps keepCount keepSince lines.length i p.2) lines
  rw [List.length_map, List.length_map, keptLines_eq, List.length_map] at hlen
  rw [← hlen]
  exact hpick

theorem keptLines_bodies (h : ∀ p ∈ lines, LineBody p.1) : ∀ b ∈ keptLines keepCount keepSince lines, LineBody b := by
  intro b hb
  obtain ⟨⟨p, i⟩, hp, rfl⟩ := List.mem_map.mp hb
  exact h p (List.fst_mem_of_mem_zipIdx (List.mem_of_mem_filter hp))

/-- What stays of a log stays of any beginning of it. -/
theorem survivors_take (n : Nat) (h : survivors keepCount keepSince entries = entries) :
    survivors keepCount keepSince (entries.take n) = entries.take n := by
  apply (pick_eq_self _ _).mpr
  intro i hi
  have hlen : (entries.take n).length ≤ entries.length := List.length_take_le' _ _
  have hstay := (pick_eq_self _ _).mp h i (by omega)
  rw [List.getElem_take]
  unfold survives at hstay ⊢
  simp only [Bool.or_eq_true, decide_eq_true_eq] at hstay ⊢
  rcases hstay with (⟨hcount, hi⟩ | hsince) | hlast
  · exact .inl (.inl ⟨hcount, by omega⟩)
  · exact .inl (.inr hsince)
  · exact .inr (by omega)

end

/-- Lines that are entries' are read as them. -/
theorem readAll_logText (bodies : List Bytes) (entries : List LogEntry) (hb : ∀ b ∈ bodies, LineBody b)
    (h : bodies.map parseLogLine = entries.map some) : readAll (logText bodies) = (entries, .ok) := by
  induction bodies generalizing entries with
  | nil =>
    obtain rfl : entries = [] := List.map_eq_nil_iff.mp h.symm
    rfl
  | cons b bs ih =>
    cases entries with
    | nil => cases h
    | cons e es =>
      obtain ⟨hparse, hrest⟩ := List.cons.inj h
      have hsplit : logText (b :: bs) = b ++ 10 :: logText bs := by simp [logText]
      rw [hsplit, readAll_body b _ (hb b (List.mem_cons_self ..)), hparse,
        ih es (fun x hx => hb x (List.mem_cons_of_mem _ hx)) hrest]

/-! ## The refs directory -/

section
variable {name : Bytes}

theorem logTmp_ne : name ++ dotLog ≠ logTmp name := by
  intro heq
  have hlen := congrArg List.length heq
  have h4 : dotTmp.length = 4 := rfl
  have htmp : (logTmp name).length = (name ++ dotLog).length + dotTmp.length := List.length_append
  omega

theorem lookup_unlinkLogTmp (fails : Bool) (dir : RefFiles) :
    (unlinkLogTmp fails name dir).lookup (name ++ dotLog) = dir.lookup (name ++ dotLog) := by
  unfold unlinkLogTmp
  split
  · rfl
  · exact AList.lookup_erase_ne logTmp_ne

theorem refFile_insert (dir : RefFiles) (file data : Bytes) : refFile (some (dir.insert file data)) file = some data :=
  AList.lookup_insert _

theorem casTreeLogRead_congr (refs refs' : Refs) (h : refFile refs' (name ++ dotLog) = refFile refs (name ++ dotLog)) :
    casTreeLogRead noFaults refs' name = casTreeLogRead noFaults refs name := by
  unfold casTreeLogRead
  rw [h]

variable (flt : PruneFaults) (keepCount keepSince : Int)

theorem rewriteLog_kept (lines : List (Bytes × BitVec 64)) (dir : RefFiles)
    (h : (rewriteLog flt name keepCount keepSince lines dir).status ≠ .ok) :
    refFile (rewriteLog flt name keepCount keepSince lines dir).refs (name ++ dotLog) =
      dir.lookup (name ++ dotLog) := by
  unfold rewriteLog at h ⊢
  simp only [] at h ⊢
  split
  · rfl
  · next hgone =>
    rw [if_neg hgone] at h
    split
    · exact lookup_unlinkLogTmp _ _
    · next hmake =>
      rw [if_neg hmake] at h
      cases hw : flt.write with
      | some k =>
        show (unlinkLogTmp _ _ _).lookup _ = _
        rw [lookup_unlinkLogTmp, AList.lookup_insert_ne logTmp_ne, lookup_unlinkLogTmp]
      | none =>
        rw [hw] at h
        simp only [] at h ⊢
        split
        · show (unlinkLogTmp _ _ _).lookup _ = _
          rw [lookup_unlinkLogTmp, AList.lookup_insert_ne logTmp_ne, lookup_unlinkLogTmp]
        · next hren =>
          rw [if_neg hren] at h
          exact absurd rfl h

/-- **A truncation that fails** leaves the log as it was, whichever step fails. -/
theorem casTreeLogTruncate_kept (basedir : Bytes) (refs : Refs)
    (h : (casTreeLogTruncate flt basedir refs name keepCount keepSince).status ≠ .ok) :
    refFile (casTreeLogTruncate flt basedir refs name keepCount keepSince).refs (name ++ dotLog) =
      refFile refs (name ++ dotLog) := by
  unfold casTreeLogTruncate at h ⊢
  split
  · rfl
  · next hname =>
    rw [if_neg hname] at h
    split
    · rfl
    · next hb =>
      rw [if_neg hb] at h
      split
      · rfl
      · next hfit =>
        rw [if_neg hfit] at h
        cases refs with
        | none => rfl
        | some dir =>
          have hlock : (lockRef name dir).lookup (name ++ dotLog) = dir.lookup (name ++ dotLog) := lockRef_log name dir
          simp only [] at h ⊢
          split
          · rfl
          · next hopen =>
            rw [if_neg hopen] at h
            split
            · exact hlock
            · next hflock =>
              rw [if_neg hflock] at h
              cases hlog : (lockRef name dir).lookup (name ++ dotLog) with
              | none => exact hlock
              | some log =>
                rw [hlog] at h
                simp only [] at h ⊢
                split
                · exact hlock
                · next hread =>
                  rw [if_neg hread] at h
                  cases hs : slurpLines flt log.length 0 log with
                  | error rc => exact hlock
                  | ok lines =>
                    rw [hs] at h
                    exact (rewriteLog_kept flt keepCount keepSince lines _ h).trans hlock

/-- What a truncation that succeeds has come through. -/
theorem casTreeLogTruncate_ok (basedir : Bytes) (refs : Refs)
    (h : (casTreeLogTruncate flt basedir refs name keepCount keepSince).status = .ok) :
    prunePathsFit basedir name = true ∧ ∃ dir log lines, refs = some dir ∧ dir.lookup (name ++ dotLog) = some log ∧
      slurpLines flt log.length 0 log = .ok lines ∧ casTreeLogTruncate flt basedir refs name keepCount keepSince =
        rewriteLog flt name keepCount keepSince lines (lockRef name dir) := by
  unfold casTreeLogTruncate at h ⊢
  split at h
  · cases h
  · next hname =>
    rw [if_neg hname]
    split at h
    · cases h
    · next hb =>
      rw [if_neg hb]
      split at h
      · cases h
      · next hfit =>
        rw [if_neg hfit]
        refine ⟨Bool.eq_true_of_not_eq_false hfit, ?_⟩
        cases refs with
        | none => cases h
        | some dir =>
          simp only [] at h ⊢
          split at h
          · cases h
          · next hopen =>
            rw [if_neg hopen]
            split at h
            · cases h
            · next hflock =>
              rw [if_neg hflock]
              cases hlog : (lockRef name dir).lookup (name ++ dotLog) with
              | none =>
                rw [hlog] at h
                cases h
              | some log =>
                rw [hlog] at h
                simp only [] at h ⊢
                split at h
                · cases h
                · next hread =>
                  rw [if_neg hread]
                  cases hs : slurpLines flt log.length 0 log with
                  | error rc =>
                    rw [hs] at h
                    -- what the loop returns is never a success
                    exact absurd h (slurpLines_error flt _ _ _ _ hs)
                  | ok lines => exact ⟨dir, log, lines, rfl, (lockRef_log name dir).symm.trans hlog, hs, rfl⟩

/-- The log after a truncation that succeeds. -/
theorem rewriteLog_pruned (lines : List (Bytes × BitVec 64)) (dir : RefFiles) (log : Bytes)
    (hname : validRefName name = true) (hlog : dir.lookup (name ++ dotLog) = some log)
    (hread : (readAll log).2 = .ok) (hs : Slurped flt.readLine 0 (readAll log).1 lines)
    (h : (rewriteLog flt name keepCount keepSince lines dir).status = .ok) :
    (rewriteLog flt name keepCount keepSince lines dir).removed = some (linesGone keepCount keepSince lines) ∧
      casTreeLogRead noFaults (rewriteLog flt name keepCount keepSince lines dir).refs name =
        (if linesGone keepCount keepSince lines = 0 then (readAll log).1
          else survivors keepCount keepSince ((readAll log).1.take lines.length), .ok) := by
  unfold rewriteLog at h ⊢
  simp only [] at h ⊢
  split at h
  · next hgone =>
    rw [if_pos hgone, if_pos hgone]
    refine ⟨by rw [hgone], ?_⟩
    have hfile : refFile (some dir) (name ++ dotLog) = some log := hlog
    rw [casTreeLogRead_noFaults _ name log hname hfile, ← hread]
  · next hgone =>
    rw [if_neg hgone, if_neg hgone]
    split at h
    · cases h
    · next hmake =>
      rw [if_neg hmake]
      cases hw : flt.write with
      | some k =>
        rw [hw] at h
        cases h
      | none =>
        rw [hw] at h
        simp only [] at h ⊢
        split at h
        · cases h
        · next hren =>
          rw [if_neg hren]
          refine ⟨rfl, ?_⟩
          rw [casTreeLogRead_noFaults _ name _ hname (refFile_insert _ _ _)]
          exact readAll_logText _ _ (keptLines_bodies hs.bodies) (hs.kept keepCount keepSince)

end

/-! ## The whole truncation -/

/-- A read of the log fails at a line that is there, while there is room for it. -/
def CutShort (fault : Nat → Bool) (count : Nat) : Prop := ∃ n < count, n ≤ LINES_MAX ∧ fault n = true

section
variable {refs : Refs} {name : Bytes} (hread : (casTreeLogRead noFaults refs name).2 = .ok)
include hread

/-- What a log that is read to its end stands on. -/
theorem casTreeLogRead_ok : validRefName name = true ∧ ∃ dir log, refs = some dir ∧
    dir.lookup (name ++ dotLog) = some log ∧ casTreeLogRead noFaults refs name = readAll log := by
  have hname : validRefName name = true := by
    by_contra hbad
    unfold casTreeLogRead at hread
    rw [if_pos (Bool.eq_false_of_not_eq_true hbad)] at hread
    cases hread
  cases hlog : refFile refs (name ++ dotLog) with
  | none =>
    unfold casTreeLogRead at hread
    rw [if_neg (by rw [hname]; exact Bool.noConfusion), hlog] at hread
    cases hread
  | some log =>
    cases refs with
    | none => cases hlog
    | some dir => exact ⟨hname, dir, log, rfl, hlog, casTreeLogRead_noFaults _ _ _ hname hlog⟩

variable (flt : PruneFaults) (basedir : Bytes) {keepCount keepSince : Int}

/-- **A truncation whose reads come to the end**, or that has nothing to drop, is exact. -/
theorem casTreeLogTruncate_exact (h : prunePathsFit basedir name = true →
      CutShort flt.readLine (casTreeLogRead noFaults refs name).1.length →
      survivors keepCount keepSince (casTreeLogRead noFaults refs name).1 = (casTreeLogRead noFaults refs name).1) :
    PrunesExactly refs name keepCount keepSince (casTreeLogTruncate flt basedir refs name keepCount keepSince) := by
  constructor
  · intro hok
    obtain ⟨hname, dir, log, rfl, hlog, hents⟩ := casTreeLogRead_ok hread
    rw [hents] at hread h ⊢
    obtain ⟨hfit, dir', log', lines, hdir, hlog', hs, heq⟩ :=
      casTreeLogTruncate_ok flt keepCount keepSince basedir _ hok
    obtain rfl := Option.some.inj hdir
    obtain rfl : log = log' := Option.some.inj (hlog.symm.trans hlog')
    have hslurped := slurpLines_spec flt _ _ _ _ (Nat.le_refl _) (Nat.zero_le _) hread hs
    rw [heq] at hok ⊢
    obtain ⟨hremoved, hafter⟩ := rewriteLog_pruned flt keepCount keepSince lines _ log hname
      ((lockRef_log name dir).trans hlog) hread hslurped hok
    rw [hremoved, hafter]
    have hgone := hslurped.gone keepCount keepSince
    have hwithin := hslurped.within
    by_cases hall : lines.length = (readAll log).1.length
    · rw [List.take_of_length_le (Nat.le_of_eq hall.symm)] at hgone ⊢
      refine ⟨?_, by congr 1; omega⟩
      split
      · have hself : survivors keepCount keepSince (readAll log).1 = (readAll log).1 :=
          (pick_sublist _ _).eq_of_length (show (survivors keepCount keepSince (readAll log).1).length = _ by omega)
        rw [hself]
      · rfl
    · -- the reading was cut short, and there is nothing to drop
      obtain ⟨hfault, hroom⟩ := hslurped.cut (by omega)
      rw [Nat.zero_add] at hfault hroom
      have hself := h hfit ⟨lines.length, by omega, hroom, hfault⟩
      rw [survivors_take lines.length hself, hslurped.taken] at hgone
      rw [if_pos (by omega), hself]
      exact ⟨rfl, by congr 1; omega⟩
  · intro herr
    exact casTreeLogRead_congr _ _ (casTreeLogTruncate_kept flt keepCount keepSince basedir refs herr)

/-- **A read that fails unnoticed** with something to drop leaves another log, or says another number. -/
theorem casTreeLogTruncate_cut (hb : 0 < keepCount ∨ 0 < keepSince) (fault : Nat → Bool)
    (hfit : prunePathsFit basedir name = true) (hcut : CutShort fault (casTreeLogRead noFaults refs name).1.length)
    (hdrop : survivors keepCount keepSince (casTreeLogRead noFaults refs name).1 ≠
    (casTreeLogRead noFaults refs name).1) :
    (casTreeLogTruncate (onlyReads fault) basedir refs name keepCount keepSince).status = .ok ∧
      ¬ PrunesExactly refs name keepCount keepSince
        (casTreeLogTruncate (onlyReads fault) basedir refs name keepCount keepSince) := by
  obtain ⟨hname, dir, log, rfl, hlog, hents⟩ := casTreeLogRead_ok hread
  rw [hents] at hread hcut hdrop
  obtain ⟨k, hk, hroom, hfault⟩ := hcut
  obtain ⟨lines, hs⟩ := slurpLines_reads fault log.length 0 log hread ⟨k, Nat.zero_le _, hroom, hfault⟩
  have hslurped := slurpLines_spec _ _ _ _ _ (Nat.le_refl _) (Nat.zero_le _) hread hs
  have hlock : (lockRef name dir).lookup (name ++ dotLog) = some log := (lockRef_log name dir).trans hlog
  have heq : casTreeLogTruncate (onlyReads fault) basedir (some dir) name keepCount keepSince =
      rewriteLog (onlyReads fault) name keepCount keepSince lines (lockRef name dir) := by
    unfold casTreeLogTruncate
    rw [if_neg (by rw [hname]; exact Bool.noConfusion), if_neg (by omega),
      if_neg (by rw [hfit]; exact Bool.noConfusion)]
    simp only [onlyReads, Bool.false_eq_true, if_false, hlock]
    simp only [onlyReads] at hs
    rw [hs]
  have hok : (rewriteLog (onlyReads fault) name keepCount keepSince lines (lockRef name dir)).status = .ok := by
    unfold rewriteLog
    simp only []
    split <;> rfl
  rw [heq]
  refine ⟨hok, fun hexact => ?_⟩
  obtain ⟨hremoved, hafter⟩ := rewriteLog_pruned (onlyReads fault) keepCount keepSince lines _ log hname hlock hread
    hslurped hok
  obtain ⟨hpruned, hcount⟩ := hexact.pruned hok
  rw [hafter, hents] at hpruned
  rw [hremoved, hents] at hcount
  have hgone := hslurped.gone keepCount keepSince
  have hsame := congrArg Prod.fst hpruned
  simp only [] at hsame
  split at hsame
  · exact hdrop hsame.symm
  · -- as many survive as of the lines that were read, and as many go
    have hlines : lines.length ≤ k := by
      by_contra hlt
      have := hslurped.read k (by omega)
      rw [Nat.zero_add] at this
      rw [show (onlyReads fault).readLine k = fault k from rfl, hfault] at this
      cases this
    have hnum := Option.some.inj hcount
    rw [← hsame] at hnum
    omega

end

/-- **When pruning keeps exactly the union.**  Of a log that is read to its end, whatever step fails: exactly
when no read of the log fails at a line that is there, or nothing is to go. -/
theorem log_truncate_exact_iff (basedir : Bytes) (refs : Refs) (name : Bytes) (keepCount keepSince : Int)
    (fault : Nat → Bool) (hread : (casTreeLogRead noFaults refs name).2 = .ok) (hb : 0 < keepCount ∨ 0 < keepSince) :
    (∀ flt : PruneFaults, flt.readLine = fault →
      PrunesExactly refs name keepCount keepSince (casTreeLogTruncate flt basedir refs name keepCount keepSince)) ↔
      (prunePathsFit basedir name = true → CutShort fault (casTreeLogRead noFaults refs name).1.length →
        survivors keepCount keepSince (casTreeLogRead noFaults refs name).1 =
          (casTreeLogRead noFaults refs name).1) := by
  constructor
  · intro hall hfit hcut
    by_contra hdrop
    exact (casTreeLogTruncate_cut hread basedir hb fault hfit hcut hdrop).2 (hall (onlyReads fault) rfl)
  · rintro h flt rfl
    exact casTreeLogTruncate_exact hread flt basedir h

/-! ## A log of five lines in two blocks -/

def longCommit (timeS : Int) : Commit := ⟨zeroHash, CStr.ofBuf (List.replicate 930 120), timeS, 0⟩

/-- The fifth line goes over the end of the first 4096 octets. -/
def longCommits : List Commit := [longCommit 1, longCommit 2, longCommit 3, longCommit 4, longCommit 5]

def longRefs : Refs := some ((∅ : RefFiles).insert ([109] ++ dotLog) (longCommits.flatMap Commit.record))

theorem longCommits_short : ∀ c ∈ longCommits, ShortCommit c := by
  intro c hc
  simp only [longCommits, List.mem_cons, List.not_mem_nil, or_false] at hc
  rcases hc with rfl | rfl | rfl | rfl | rfl <;> constructor <;> decide +kernel

theorem longRefs_read : casTreeLogRead noFaults longRefs [109] = (longCommits.map Commit.reported, .ok) := by
  have hvalid : ∀ c ∈ longCommits, validHash c.root = true := by decide +kernel
  have hrecords := readAll_records longCommits [] hvalid longCommits_short
  rw [List.append_nil, readAll_nil, List.append_nil] at hrecords
  rw [casTreeLogRead_noFaults longRefs [109] _ (by decide) (refFile_insert _ _ _)]
  exact hrecords

theorem longRefs_drops : survivors 1 0 (longCommits.map Commit.reported) ≠ longCommits.map Commit.reported := by
  intro hself
  have hfirst := (pick_eq_self _ _).mp hself 0 (by decide)
  revert hfirst
  decide +kernel

theorem log_truncate_exact_long : (∀ flt : PruneFaults, flt.readLine = (fun n => decide (n = 4)) →
      PrunesExactly longRefs [109] 1 0 (casTreeLogTruncate flt [100] longRefs [109] 1 0)) ↔
    (prunePathsFit [100] [109] = true →
      CutShort (fun n => decide (n = 4)) (casTreeLogRead noFaults longRefs [109]).1.length →
      survivors 1 0 (casTreeLogRead noFaults longRefs [109]).1 = (casTreeLogRead noFaults longRefs [109]).1) :=
  log_truncate_exact_iff [100] longRefs [109] 1 0 _ (by rw [longRefs_read]) (.inl (by decide))

/-- The second block cannot be read, and the newest entry is dropped. -/
theorem log_truncate_drops_newest : ¬ ∀ (flt : PruneFaults) (basedir : Bytes) (refs : Refs) (name : Bytes)
    (keepCount keepSince : Int), (casTreeLogRead noFaults refs name).2 = .ok → 0 < keepCount ∨ 0 < keepSince →
      PrunesExactly refs name keepCount keepSince (casTreeLogTruncate flt basedir refs name keepCount keepSince) := by
  intro hall
  have hcut : CutShort (fun n => decide (n = 4)) (casTreeLogRead noFaults longRefs [109]).1.length := by
    rw [longRefs_read]
    exact ⟨4, by decide, by decide, by decide⟩
  have hdrop : survivors 1 0 (casTreeLogRead noFaults longRefs [109]).1 ≠
      (casTreeLogRead noFaults longRefs [109]).1 := by
    rw [longRefs_read]
    exact longRefs_drops
  have hread : (casTreeLogRead noFaults longRefs [109]).2 = .ok := by rw [longRefs_read]
  exact (casTreeLogTruncate_cut hread [100] (.inl (by decide)) _ (by decide) hcut hdrop).2
    (hall (onlyReads fun n => decide (n = 4)) [100] longRefs [109] 1 0 hread (.inl (by decide)))

end Smolvfs
