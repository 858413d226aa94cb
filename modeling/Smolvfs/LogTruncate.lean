import Smolvfs.LogLines

/-!
# Truncating a log

`cas_tree_log_truncate` reads the lines of a log with their times, decides which
survive and writes those to a new log: the newest, the last `keep_count`, and those
that are not older than `keep_since`.

`readAll_kept`: an entry of the old log that survives is an entry of the new one.
-/

namespace Smolvfs

open Octets Numeral

/-! ## The function -/

/-- `log_line_time` -/
def logLineTime (line : Bytes) : Option (BitVec 64) :=
  if line.length < CAS_HASH_HEX + 1 then none
  else if slice line CAS_HASH_HEX 1 ≠ [32] then none
  else (scanInt 10 (line.drop (CAS_HASH_HEX + 1))).map fun v => BitVec.ofInt 64 (strtol v.1)

/-- The lines of a log with their times, as far as the reading comes; `fault` says which line it does not
come to because a read fails, which looks like the end of the file. -/
def truncateLines (fault : Nat → Bool) : Nat → Nat → Bytes → Except Status (List (Bytes × BitVec 64))
  | 0, _, _ => .ok []
  | fuel + 1, n, s =>
    if s = [] then .ok []
    else if fault n then .ok []
    else
      let chunk := logChunk s
      let line := (CStr.ofBuf chunk).bytes
      if line ≠ [] ∧ line.getLast? ≠ some 10 then
        -- a torn line at the end is dropped
        if chunk.length < LOG_LINE - 1 ∧ (10 : UInt8) ∉ chunk then .ok [] else .error .err
      else
        match logLineTime line.dropLast with
        | none => .error .err
        | some t => (truncateLines fault fuel (n + 1) (s.drop chunk.length)).map ((line.dropLast, t) :: ·)

/-- Whether line `i` of `count` survives. -/
def logKeeps (keepCount keepSince : Int) (count i : Nat) (t : BitVec 64) : Bool :=
  let firstByCount : Int := if keepCount > 0 ∧ keepCount < count then count - keepCount else 0
  decide (i + 1 = count) || (decide (keepCount > 0) && decide (firstByCount ≤ i)) ||
    (decide (keepSince > 0) && decide (keepSince ≤ t.toInt))

/-- The lines that survive. -/
def keptLines (keepCount keepSince : Int) (lines : List (Bytes × BitVec 64)) : List Bytes :=
  (lines.zipIdx.filter fun p => logKeeps keepCount keepSince lines.length p.2 p.1.2).map fun p => p.1.1

/-- The new log. -/
def logText (lines : List Bytes) : Bytes := lines.flatMap (· ++ [10])

/-! ## Its lines -/

theorem logLineTime_of_parse (line : Bytes) (e : LogEntry) (h : parseLogLine line = some e) :
    logLineTime line = some e.timeS := by
  unfold parseLogLine at h
  unfold logLineTime
  split at h
  · cases h
  · next hlong =>
    split at h
    · cases h
    · next hblank =>
      obtain ⟨v, hv, h⟩ := Option.bind_eq_some_iff.mp h
      obtain ⟨ns, -, rfl⟩ := Option.map_eq_some_iff.mp h
      rw [if_neg hlong, if_neg hblank, hv]
      rfl

/-- A newline comes only at the end of what `fgets` gives. -/
theorem logChunk_newline (s : Bytes) : (10 : UInt8) ∉ (logChunk s).dropLast := by
  intro h
  unfold logChunk fgetsLen at h
  by_cases h10 : (10 : UInt8) ∈ s
  · obtain ⟨a, b, rfl, ha⟩ := List.eq_append_cons_of_mem h10
    have hle : min (LOG_LINE - 1) (a.length + 1) ≤ (a ++ [10]).length := by simp
    rw [lineLen_body a b ha] at h
    have h : (10 : UInt8) ∈ ((a ++ 10 :: b).take (min (LOG_LINE - 1) (a.length + 1))).dropLast := h
    rw [show a ++ 10 :: b = (a ++ [10]) ++ b by simp, List.take_append_of_le_length hle,
      List.dropLast_take_eq_take_dropLast, List.dropLast_concat] at h
    exact ha (List.mem_of_mem_take h)
  · exact h10 (List.mem_of_mem_take (List.mem_of_mem_dropLast h))

theorem lineBody_prefix (line chunk : Bytes) (hpre : line <+: chunk) (h10 : (10 : UInt8) ∉ chunk.dropLast)
    (h0 : (0 : UInt8) ∉ line) (hne : line ≠ []) (hlen : chunk.length ≤ LOG_LINE - 1) : LineBody line.dropLast := by
  have hpos : 0 < line.length := List.length_pos_of_ne_nil hne
  have hle := hpre.length_le
  refine ⟨fun h => h10 ?_, fun h => h0 (List.mem_of_mem_dropLast h), ?_⟩
  · obtain ⟨rest, rfl⟩ := hpre
    have hsub : line.dropLast <+: (line ++ rest).dropLast := by
      rw [List.dropLast_eq_take, List.dropLast_eq_take, ← @List.take_append_of_le_length _ line rest _ (by omega)]
      exact List.take_prefix_take_left (by omega)
    exact hsub.subset h
  · unfold LOG_LINE at hlen ⊢
    rw [List.length_dropLast]
    omega

/-- What the reader takes for a line is one. -/
theorem lineBody_chunk (s : Bytes) (hne : (CStr.ofBuf (logChunk s)).bytes ≠ []) :
    LineBody (CStr.ofBuf (logChunk s)).bytes.dropLast := by
  refine lineBody_prefix _ (logChunk s) (List.takeWhile_prefix _) (logChunk_newline s) (CStr.ofBuf _).noNul hne ?_
  unfold logChunk fgetsLen
  rw [List.length_take]
  omega

section
variable (fault : Nat → Bool)

/-- **The lines read**: each is one, and where `cas_tree_log_read` has an entry the line parses as it. -/
theorem truncateLines_spec (fuel n : Nat) (s : Bytes) (lines : List (Bytes × BitVec 64)) (hf : s.length ≤ fuel)
    (h : truncateLines fault fuel n s = .ok lines) :
    (∀ p ∈ lines, LineBody p.1) ∧ ∀ i (hi : i < lines.length) e, (readAll s).1[i]? = some e →
      lines[i].2 = e.timeS ∧ parseLogLine lines[i].1 = some e := by
  induction fuel generalizing n s lines with
  | zero =>
    obtain rfl := Except.ok.inj h
    exact ⟨by simp, fun i hi => absurd hi (by simp)⟩
  | succ fuel ih =>
    unfold truncateLines at h
    split at h
    · obtain rfl := Except.ok.inj h
      exact ⟨by simp, fun i hi => absurd hi (by simp)⟩
    · next hs =>
      split at h
      · obtain rfl := Except.ok.inj h
        exact ⟨by simp, fun i hi => absurd hi (by simp)⟩
      · simp only [] at h
        split at h
        · split at h
          · obtain rfl := Except.ok.inj h
            exact ⟨by simp, fun i hi => absurd hi (by simp)⟩
          · cases h
        · next hline =>
          split at h
          · cases h
          · next t ht =>
            have hpos := logChunk_length_pos s hs
            have hdrop : (s.drop (logChunk s).length).length = s.length - (logChunk s).length := List.length_drop
            cases hr : truncateLines fault fuel (n + 1) (s.drop (logChunk s).length) with
            | error rc =>
              rw [hr] at h
              cases h
            | ok more =>
              rw [hr] at h
              obtain rfl := Except.ok.inj h
              obtain ⟨hbodies, hents⟩ := ih (n + 1) _ more (by omega) hr
              have hne : (CStr.ofBuf (logChunk s)).bytes ≠ [] := by
                intro hnil
                rw [hnil] at ht
                cases ht
              refine ⟨?_, ?_⟩
              · intro p hp
                rcases List.mem_cons.mp hp with rfl | hp
                · exact lineBody_chunk s hne
                · exact hbodies p hp
              · intro i hi e he
                rw [readAll_eq s hs] at he
                simp only [if_neg hline] at he
                cases hparse : parseLogLine (CStr.ofBuf (logChunk s)).bytes.dropLast with
                | none =>
                  rw [hparse] at he
                  cases he
                | some e0 =>
                  rw [hparse] at he
                  cases i with
                  | zero =>
                    obtain rfl : e0 = e := Option.some.inj he
                    have := logLineTime_of_parse _ e0 hparse
                    rw [ht] at this
                    exact ⟨Option.some.inj this, hparse⟩
                  | succ i => exact hents i (by simpa using hi) e he

end

/-! ## The new log -/

/-- A line of the new log is an entry of it when it parses and so do the lines before it. -/
theorem mem_readAll_logText (before after : List Bytes) (line : Bytes) (e : LogEntry)
    (hb : ∀ l ∈ before, LineBody l ∧ (parseLogLine l).isSome = true) (hl : LineBody line)
    (he : parseLogLine line = some e) : e ∈ (readAll (logText (before ++ line :: after))).1 := by
  induction before with
  | nil =>
    have : logText ([] ++ line :: after) = line ++ 10 :: logText after := by simp [logText]
    rw [this, readAll_body line _ hl, he]
    exact List.mem_cons_self
  | cons b bs ih =>
    have : logText (b :: bs ++ line :: after) = b ++ 10 :: logText (bs ++ line :: after) := by simp [logText]
    obtain ⟨hbody, hparse⟩ := hb b (by simp)
    obtain ⟨e', he'⟩ := Option.isSome_iff_exists.mp hparse
    rw [this, readAll_body b _ hbody, he']
    exact List.mem_cons_of_mem _ (ih fun l hl => hb l (by simp [hl]))

/-- The surviving lines before and after one that survives. -/
theorem keptLines_split (keepCount keepSince : Int) (lines : List (Bytes × BitVec 64)) (i : Nat)
    (hi : i < lines.length) (hk : logKeeps keepCount keepSince lines.length i lines[i].2 = true) :
    ∃ before after, keptLines keepCount keepSince lines = before ++ lines[i].1 :: after ∧
      ∀ l ∈ before, ∃ j, ∃ hj : j < i, l = lines[j].1 := by
  have hsplit : lines = lines.take i ++ lines[i] :: lines.drop (i + 1) := by
    rw [← List.drop_eq_getElem_cons hi, List.take_append_drop]
  have hlen : (lines.take i).length = i := List.length_take_of_le (Nat.le_of_lt hi)
  have hzip : lines.zipIdx = (lines.take i).zipIdx ++ (lines[i], i) :: (lines.drop (i + 1)).zipIdx (i + 1) := by
    conv_lhs => rw [hsplit]
    rw [List.zipIdx_append, List.zipIdx_cons, hlen, Nat.zero_add]
  unfold keptLines
  rw [hzip, List.filter_append, List.filter_cons_of_pos (by exact hk), List.map_append, List.map_cons]
  refine ⟨_, _, rfl, ?_⟩
  intro l hl
  obtain ⟨⟨p, j⟩, hp, rfl⟩ := List.mem_map.mp hl
  have hmem := List.mem_of_mem_filter hp
  obtain ⟨-, hj, hget⟩ := List.mem_zipIdx hmem
  rw [hlen, Nat.zero_add] at hj
  refine ⟨j, hj, ?_⟩
  rw [hget]
  simp

/-- **An entry that survives is an entry of the new log.** -/
theorem readAll_kept (fault : Nat → Bool) (log : Bytes) (lines : List (Bytes × BitVec 64))
    (keepCount keepSince : Int) (hr : truncateLines fault log.length 0 log = .ok lines) (i : Nat) (e : LogEntry)
    (hi : i < lines.length) (he : (readAll log).1[i]? = some e)
    (hk : logKeeps keepCount keepSince lines.length i e.timeS = true) :
    e ∈ (readAll (logText (keptLines keepCount keepSince lines))).1 := by
  obtain ⟨hbodies, hents⟩ := truncateLines_spec fault log.length 0 log lines (Nat.le_refl _) hr
  obtain ⟨htime, hparse⟩ := hents i hi e he
  obtain ⟨before, after, hkept, hbefore⟩ := keptLines_split keepCount keepSince lines i hi (by rw [htime]; exact hk)
  rw [hkept]
  refine mem_readAll_logText before after _ e ?_ (hbodies _ (List.getElem_mem hi)) hparse
  intro l hl
  obtain ⟨j, hj, rfl⟩ := hbefore l hl
  have hjl : j < lines.length := Nat.lt_trans hj hi
  refine ⟨hbodies _ (List.getElem_mem hjl), ?_⟩
  -- there are entries up to the one that survives
  have hlen : i < (readAll log).1.length := (List.getElem?_eq_some_iff.mp he).1
  obtain ⟨-, hj'⟩ := hents j hjl _ (List.getElem?_eq_getElem (Nat.lt_trans hj hlen))
  rw [hj']
  rfl

end Smolvfs
