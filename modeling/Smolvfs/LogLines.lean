import Smolvfs.Refs

/-!
# The lines of a log

What `cas_tree_log_read` makes of a log line by line: a line that is whole, fits
the buffer and parses is an entry, and the rest is read after it.

`log_faithful_iff`: the log of a ref that had none gives back the commits it was
made by exactly when there is one and each comment holds no newline, does not
begin with a blank and lets its line fit the buffer.
-/

namespace Smolvfs

open Octets Numeral

/-! ## Reading without a fault -/

/-- The entries of a log's contents and the result, when no read fails. -/
def readAll (s : Bytes) : List LogEntry × Status := logRead noFaults [] s.length 0 s

/-- The octets `fgets` gives, and how many octets a line takes. -/
def logChunk (s : Bytes) : Bytes := s.take (fgetsLen LOG_LINE s)

theorem logChunk_length_pos (s : Bytes) (h : s ≠ []) : 0 < (logChunk s).length := by
  have hs : 0 < s.length := List.length_pos_of_ne_nil h
  unfold logChunk fgetsLen LOG_LINE
  rw [List.length_take]
  cases lineLen s with
  | none => show 0 < min (min (1024 - 1) s.length) s.length; omega
  | some n => show 0 < min (min (1024 - 1) (n + 1)) s.length; omega

/-- Octets beyond the file's own are not needed as fuel, and the name and the line numbers do not matter. -/
theorem logRead_noFaults (name : Bytes) (fuel n : Nat) (s : Bytes) (hf : s.length ≤ fuel) :
    logRead noFaults name fuel n s = readAll s := by
  suffices ∀ fuel fuel' n n' name name' s, s.length ≤ fuel → s.length ≤ fuel' →
      logRead noFaults name fuel n s = logRead noFaults name' fuel' n' s from this _ _ _ _ _ _ s hf (Nat.le_refl _)
  intro fuel
  induction fuel with
  | zero =>
    intro fuel' n n' name name' s h h'
    obtain rfl : s = [] := List.eq_nil_of_length_eq_zero (by omega)
    cases fuel' <;> simp [logRead]
  | succ fuel ih =>
    intro fuel' n n' name name' s h h'
    by_cases hs : s = []
    · subst hs
      cases fuel' <;> simp [logRead]
    · have hpos := logChunk_length_pos s hs
      cases fuel' with
      | zero => exact absurd (List.eq_nil_of_length_eq_zero (by omega)) hs
      | succ fuel' =>
        have hdrop : (s.drop (logChunk s).length).length = s.length - (logChunk s).length := List.length_drop
        have hrest := ih fuel' (n + 1) (n' + 1) name name' (s.drop (logChunk s).length) (by omega) (by omega)
        unfold logChunk at hrest
        unfold logRead
        simp only [noFaults, Bool.false_eq_true, if_false] at hrest ⊢
        rw [hrest]

/-- One turn of the loop. -/
theorem readAll_eq (s : Bytes) (h : s ≠ []) : readAll s =
    let line := (CStr.ofBuf (logChunk s)).bytes
    if line ≠ [] ∧ line.getLast? ≠ some 10 then
      if (logChunk s).length < LOG_LINE - 1 ∧ (10 : UInt8) ∉ logChunk s then ([], .ok) else ([], .err)
    else
      match parseLogLine line.dropLast with
      | none => ([], .err)
      | some e => (e :: (readAll (s.drop (logChunk s).length)).1, (readAll (s.drop (logChunk s).length)).2) := by
  have hs : 0 < s.length := List.length_pos_of_ne_nil h
  have hpos := logChunk_length_pos s h
  have hdrop : (s.drop (logChunk s).length).length = s.length - (logChunk s).length := List.length_drop
  obtain ⟨fuel, hfuel⟩ : ∃ fuel, s.length = fuel + 1 := ⟨s.length - 1, by omega⟩
  have hrest := logRead_noFaults [] fuel 1 (s.drop (logChunk s).length) (by omega)
  unfold logChunk at hrest
  rw [readAll, hfuel, logRead]
  simp only [logChunk, noFaults, if_neg h, Bool.false_eq_true, if_false, Nat.zero_add] at hrest ⊢
  rw [hrest]
  rfl

/-- `cas_tree_log_read` of a log that is there. -/
theorem casTreeLogRead_noFaults (refs : Refs) (name data : Bytes) (hn : validRefName name = true)
    (hl : refFile refs (name ++ dotLog) = some data) :
    casTreeLogRead noFaults refs name = readAll data := by
  unfold casTreeLogRead
  rw [if_neg (by simp [hn]), hl]
  exact logRead_noFaults name _ _ _ (Nat.le_refl _)

theorem readAll_nil : readAll [] = ([], .ok) := rfl

/-! ## Lines that are framed as the reader wants them -/

/-- The octets of a line without its newline, which fits the buffer with it. -/
structure LineBody (body : Bytes) : Prop where
  noNewline : (10 : UInt8) ∉ body
  noNul : (0 : UInt8) ∉ body
  fits : body.length + 1 < LOG_LINE

theorem lineLen_none (s : Bytes) (h : (10 : UInt8) ∉ s) : lineLen s = none := if_neg h

theorem lineLen_body (body rest : Bytes) (h : (10 : UInt8) ∉ body) :
    lineLen (body ++ 10 :: rest) = some body.length := by
  unfold lineLen
  rw [if_pos (by simp), takeWhile_ne_append body rest h]

/-- `fgets` comes to the end of the file within a line that is short of the buffer, and nowhere else. -/
theorem logChunk_feof (s : Bytes) (hl : (logChunk s).length < LOG_LINE - 1) (h10 : (10 : UInt8) ∉ logChunk s) :
    ¬ ((10 : UInt8) ∈ s ∨ LOG_LINE - 1 ≤ s.length) := by
  intro hfr
  unfold logChunk fgetsLen at hl h10
  by_cases h : (10 : UInt8) ∈ s
  · obtain ⟨a, b, rfl, ha⟩ := List.eq_append_cons_of_mem h
    rw [lineLen_body a b ha] at hl h10
    have hlen : a.length + 1 ≤ (a ++ 10 :: b).length := by
      simp only [List.length_append, List.length_cons]
      omega
    have hmin : min (LOG_LINE - 1) (a.length + 1) = a.length + 1 := by
      rw [List.length_take] at hl
      have : min (min (LOG_LINE - 1) (a.length + 1)) (a ++ 10 :: b).length < LOG_LINE - 1 := hl
      omega
    refine h10 ?_
    show (10 : UInt8) ∈ (a ++ 10 :: b).take (min (LOG_LINE - 1) (a.length + 1))
    rw [hmin, show a ++ 10 :: b = (a ++ [10]) ++ b by simp, List.take_left' (by simp)]
    simp
  · have hfull := hfr.resolve_left h
    rw [lineLen_none s h, List.length_take] at hl
    have : min (min (LOG_LINE - 1) s.length) s.length < LOG_LINE - 1 := hl
    omega

/-- What follows a newline, or a full buffer, does not change what `fgets` gives. -/
theorem logChunk_append (s t : Bytes) (h : (10 : UInt8) ∈ s ∨ LOG_LINE - 1 ≤ s.length) :
    logChunk (s ++ t) = logChunk s := by
  have hsame : fgetsLen LOG_LINE (s ++ t) = fgetsLen LOG_LINE s ∧ fgetsLen LOG_LINE s ≤ s.length := by
    unfold fgetsLen
    by_cases h10 : (10 : UInt8) ∈ s
    · obtain ⟨a, b, rfl, ha⟩ := List.eq_append_cons_of_mem h10
      rw [List.append_assoc, List.cons_append, lineLen_body a _ ha, lineLen_body a _ ha]
      refine ⟨rfl, ?_⟩
      show min (LOG_LINE - 1) (a.length + 1) ≤ _
      simp only [List.length_append, List.length_cons]
      omega
    · have hfull := h.resolve_left h10
      rw [lineLen_none s h10]
      show _ = min (LOG_LINE - 1) s.length ∧ min (LOG_LINE - 1) s.length ≤ s.length
      refine ⟨?_, Nat.min_le_right _ _⟩
      rw [Nat.min_eq_left hfull]
      by_cases h10' : (10 : UInt8) ∈ t
      · obtain ⟨a, b, rfl, ha⟩ := List.eq_append_cons_of_mem h10'
        have hno : (10 : UInt8) ∉ s ++ a := by simp [h10, ha]
        rw [← List.append_assoc, lineLen_body (s ++ a) b hno]
        show min (LOG_LINE - 1) ((s ++ a).length + 1) = _
        rw [List.length_append]
        omega
      · rw [lineLen_none (s ++ t) (by simp [h10, h10'])]
        show min (LOG_LINE - 1) (s ++ t).length = _
        rw [List.length_append]
        omega
  unfold logChunk
  rw [hsame.1, List.take_append_of_le_length hsame.2]

section
variable (body rest : Bytes)

theorem logChunk_body (h : (10 : UInt8) ∉ body) (hl : body.length + 1 < LOG_LINE) :
    logChunk (body ++ 10 :: rest) = body ++ [10] := by
  have hmin : min (LOG_LINE - 1) (body.length + 1) = body.length + 1 := by
    unfold LOG_LINE at hl ⊢
    omega
  unfold logChunk fgetsLen
  rw [lineLen_body body rest h]
  show (body ++ 10 :: rest).take (min (LOG_LINE - 1) (body.length + 1)) = _
  rw [hmin, List.take_append, List.take_of_length_le (by omega)]
  simp

/-- A line that fits is parsed, and reading goes on after it. -/
theorem readAll_body (h : LineBody body) : readAll (body ++ 10 :: rest) =
    match parseLogLine body with
    | none => ([], .err)
    | some e => (e :: (readAll rest).1, (readAll rest).2) := by
  have hchunk := logChunk_body body rest h.noNewline h.fits
  have hnul : (0 : UInt8) ∉ body ++ [10] := by simp [h.noNul]
  have hline : (CStr.ofBuf (body ++ [10])).bytes = body ++ [10] := takeWhile_ne _ hnul
  have hdrop : (body ++ 10 :: rest).drop (body ++ [10]).length = rest := by
    rw [show body ++ 10 :: rest = (body ++ [10]) ++ rest by simp, List.drop_left]
  rw [readAll_eq _ (by simp), hchunk]
  simp only [hline, hdrop]
  rw [if_neg (by simp), List.dropLast_concat]

/-- A line that does not fit ends the reading with an error. -/
theorem readAll_long (h : (10 : UInt8) ∉ body) (h0 : (0 : UInt8) ∉ body) (hl : LOG_LINE - 1 ≤ body.length) :
    readAll (body ++ rest) = ([], .err) := by
  have hpos : 0 < body.length := by
    unfold LOG_LINE at hl
    omega
  have hchunk : logChunk (body ++ rest) = body.take (LOG_LINE - 1) := by
    rw [logChunk_append body rest (.inr hl)]
    unfold logChunk fgetsLen
    rw [lineLen_none body h]
    show body.take (min (LOG_LINE - 1) body.length) = _
    rw [Nat.min_eq_left hl]
  have hlen : (body.take (LOG_LINE - 1)).length = LOG_LINE - 1 := by
    rw [List.length_take]
    omega
  have hline : (CStr.ofBuf (body.take (LOG_LINE - 1))).bytes = body.take (LOG_LINE - 1) :=
    takeWhile_ne _ fun hm => h0 (List.mem_of_mem_take hm)
  have hlast : (body.take (LOG_LINE - 1)).getLast? ≠ some 10 := by
    intro hl
    exact h (List.mem_of_mem_take (List.mem_of_getLast? hl))
  have hne : body.take (LOG_LINE - 1) ≠ [] := by
    intro hnil
    rw [hnil] at hlen
    unfold LOG_LINE at hlen
    simp at hlen
  rw [readAll_eq _ (by intro hnil; rw [List.append_eq_nil_iff] at hnil; rw [hnil.1] at hpos; simp at hpos), hchunk]
  simp only [hline]
  rw [if_pos ⟨hne, hlast⟩, if_neg (by omega)]

end

/-! ## A log that goes on -/

/-- The reader comes to the end of the log, and the log does not end within a line. -/
def SoundLog (s : Bytes) : Prop := (readAll s).2 = .ok ∧ (s = [] ∨ s.getLast? = some 10)

section
variable (s t : Bytes)

/-- What is short of the buffer and has no newline is one chunk. -/
theorem logChunk_torn (h : (10 : UInt8) ∉ s) (hl : s.length < LOG_LINE - 1) : logChunk s = s := by
  unfold logChunk fgetsLen
  rw [lineLen_none s h]
  exact List.take_of_length_le (show s.length ≤ min (LOG_LINE - 1) s.length by omega)

/-- One line without its newline, short of the buffer, is no entry yet. -/
theorem readAll_torn (h : (10 : UInt8) ∉ s) (hl : s.length < LOG_LINE - 1) : (readAll s).1 = [] := by
  by_cases hs : s = []
  · rw [hs]
    rfl
  · rw [readAll_eq s hs, logChunk_torn s h hl]
    simp only []
    split
    · split <;> rfl
    · next hline =>
      have hmem : ∀ c ∈ (CStr.ofBuf s).bytes, c ∈ s := fun c hc => (List.takeWhile_sublist _).mem hc
      have hnil : (CStr.ofBuf s).bytes = [] := by
        by_contra hne
        refine hline ⟨hne, fun hlast => h (hmem 10 (List.mem_of_getLast? hlast))⟩
      rw [hnil]
      rfl

/-- **A log that goes on keeps its entries**, and all of them are read when it was sound. -/
theorem readAll_append : (∃ more, (readAll (s ++ t)).1 = (readAll s).1 ++ more) ∧
    (SoundLog s → readAll (s ++ t) = ((readAll s).1 ++ (readAll t).1, (readAll t).2)) := by
  induction hn : s.length using Nat.strong_induction_on generalizing s with
  | _ n ih =>
    by_cases hs : s = []
    · subst hs
      exact ⟨⟨_, rfl⟩, fun _ => rfl⟩
    by_cases hfr : (10 : UInt8) ∈ s ∨ LOG_LINE - 1 ≤ s.length
    · have hpos := logChunk_length_pos s hs
      have hle : (logChunk s).length ≤ s.length := List.length_take_le' _ _
      have hdrop : (s ++ t).drop (logChunk s).length = s.drop (logChunk s).length ++ t :=
        List.drop_append_of_le_length hle
      have hlen : (s.drop (logChunk s).length).length = s.length - (logChunk s).length := List.length_drop
      obtain ⟨⟨more, hmore⟩, hsound⟩ := ih _ (by omega) (s.drop (logChunk s).length) rfl
      have hright := readAll_eq (s ++ t) (by simp [hs])
      have hleft := readAll_eq s hs
      rw [logChunk_append s t hfr, hdrop] at hright
      simp only [] at hright hleft
      rw [hright]
      unfold SoundLog
      rw [hleft]
      split
      · next hbad =>
        split
        · next hfeof => exact absurd hfr (logChunk_feof s hfeof.1 hfeof.2)
        · refine ⟨⟨[], rfl⟩, fun hsnd => ?_⟩
          exact absurd hsnd.1 (by simp)
      · split
        · refine ⟨⟨[], rfl⟩, fun hsnd => ?_⟩
          exact absurd hsnd.1 (by simp)
        · next e he =>
          refine ⟨⟨more, by rw [hmore]; rfl⟩, fun hsnd => ?_⟩
          have hrest : SoundLog (s.drop (logChunk s).length) := by
            refine ⟨hsnd.1, ?_⟩
            by_cases hd : s.drop (logChunk s).length = []
            · exact .inl hd
            · refine .inr ?_
              rw [← hsnd.2.resolve_left hs, List.getLast?_drop, if_neg]
              intro hge
              rw [List.drop_eq_nil_iff] at hd
              exact hd hge
          rw [hsound hrest]
          rfl
    · obtain ⟨h10, hl⟩ := not_or.mp hfr
      rw [readAll_torn s h10 (by omega)]
      refine ⟨⟨_, rfl⟩, fun hsnd => ?_⟩
      rcases hsnd.2 with h | h
      · exact absurd h hs
      · exact absurd (List.mem_of_getLast? h) h10

end

/-! ## A record -/

/-- A commit: the root, the comment and the time. -/
structure Commit where
  root : Bytes
  comment : CStr
  timeS : Int
  timeNs : Int
  deriving DecidableEq

/-- A record up to the first newline, with the comment `c` up to there. -/
def logBody (root : Bytes) (timeS timeNs : Int) (c : Bytes) : Bytes :=
  root ++ (32 :: (printInt timeS ++ (32 :: (printInt timeNs ++ (32 :: c)))))

theorem logLine_eq (root : Bytes) (timeS timeNs : Int) (comment : Bytes) :
    logLine root timeS timeNs comment = logBody root timeS timeNs (comment ++ [10]) := rfl

theorem logBody_append (root : Bytes) (timeS timeNs : Int) (c d : Bytes) :
    logBody root timeS timeNs (c ++ d) = logBody root timeS timeNs c ++ d := by simp [logBody]

theorem printInt_ne (n : Int) : ∀ c ∈ printInt n, c ≠ 0 ∧ c ≠ 10 := by
  intro c hc
  rcases printInt_chars n c hc with rfl | hd
  · decide
  · obtain ⟨-, -, -, h0, h10, -⟩ := isDigit_ne 10 c hd
    exact ⟨h0, h10⟩

theorem validHash_ne (hash : Bytes) (h : validHash hash = true) : ∀ c ∈ hash, c ≠ 0 ∧ c ≠ 10 := by
  intro c hc
  have hx := ((validHash_iff hash).mp h).2 c hc
  constructor
  · rintro rfl
    revert hx
    decide
  · rintro rfl
    revert hx
    decide

section
variable (root : Bytes) (hr : validHash root = true) (timeS timeNs : Int)
include hr

/-- What a record gives as an entry; `sscanf` skips all the blanks before the comment. -/
theorem parseLogLine_body (c : Bytes) : parseLogLine (logBody root timeS timeNs c) =
    some ⟨root, BitVec.ofInt 64 (strtol timeS), BitVec.ofInt 32 (strtol timeNs), skipSpace c⟩ := by
  have hlen : root.length = CAS_HASH_HEX := ((validHash_iff root).mp hr).1
  have hlong : ¬ (logBody root timeS timeNs c).length < CAS_HASH_HEX + 1 := by
    simp only [logBody, List.length_append, List.length_cons, hlen]
    omega
  have hblank : slice (logBody root timeS timeNs c) CAS_HASH_HEX 1 = [32] := by
    unfold logBody slice
    rw [← hlen, List.drop_left]
    rfl
  have hrest : (logBody root timeS timeNs c).drop (CAS_HASH_HEX + 1) =
      printInt timeS ++ (32 :: (printInt timeNs ++ (32 :: c))) := by
    unfold logBody
    rw [← hlen, ← List.drop_drop, List.drop_left]
    rfl
  have htake : (logBody root timeS timeNs c).take CAS_HASH_HEX = root := by
    unfold logBody
    rw [← hlen, List.take_left]
  have hskip : skipSpace (32 :: c) = skipSpace c := by simp [skipSpace, isSpace]
  unfold parseLogLine
  rw [if_neg hlong, if_neg (by simp [hblank]), hrest, htake, scanInt_printInt _ _ (stopsDigits_space 10 _)]
  simp only [Option.bind_some, scanInt_space]
  rw [scanInt_printInt _ _ (stopsDigits_space 10 _)]
  simp only [Option.map_some, hskip]

/-- What is neither a NUL nor a newline in the comment is so in the record. -/
theorem logBody_not_mem (c : Bytes) (x : UInt8) (hx : x = 0 ∨ x = 10) (h : x ∉ c) :
    x ∉ logBody root timeS timeNs c := by
  intro hm
  simp only [logBody, List.mem_append, List.mem_cons] at hm
  have hsep : x ≠ 32 := by
    rcases hx with rfl | rfl <;> decide
  have hno : ¬ (x ≠ 0 ∧ x ≠ 10) := by
    rintro ⟨h0, h10⟩
    rcases hx with hx | hx
    · exact h0 hx
    · exact h10 hx
  rcases hm with hm | hm | hm | hm | hm | hm | hm
  · exact hno (validHash_ne root hr x hm)
  · exact hsep hm
  · exact hno (printInt_ne timeS x hm)
  · exact hsep hm
  · exact hno (printInt_ne timeNs x hm)
  · exact hsep hm
  · exact h hm

/-- **A record is read back by its first line**: its comment up to a newline and without the blanks at its
front, when that line fits the buffer; otherwise nothing, from there on. -/
theorem readAll_record (comment : CStr) (rest : Bytes) :
    let first := comment.bytes.takeWhile (· != 10)
    if (logBody root timeS timeNs first).length + 1 < LOG_LINE then
      ∃ rest', readAll (logLine root timeS timeNs comment.bytes ++ rest) =
          (⟨root, BitVec.ofInt 64 (strtol timeS), BitVec.ofInt 32 (strtol timeNs), skipSpace first⟩ ::
            (readAll rest').1, (readAll rest').2) ∧
        ((10 : UInt8) ∉ comment.bytes → rest' = rest)
    else readAll (logLine root timeS timeNs comment.bytes ++ rest) = ([], .err) := by
  intro first
  have h10 : (10 : UInt8) ∉ first := not_mem_takeWhile_ne comment.bytes
  have h0 : (0 : UInt8) ∉ first := fun h => comment.noNul ((List.takeWhile_sublist _).mem h)
  -- what follows the first line of the record
  obtain ⟨tail, htail, hone⟩ : ∃ tail, comment.bytes ++ 10 :: rest = first ++ 10 :: tail ∧
      ((10 : UInt8) ∉ comment.bytes → tail = rest) := by
    by_cases h : (10 : UInt8) ∈ comment.bytes
    · obtain ⟨a, b, hc, ha⟩ := List.eq_append_cons_of_mem h
      have hfirst : first = a := by
        unfold first
        rw [hc]
        exact takeWhile_ne_append a b ha
      refine ⟨b ++ 10 :: rest, ?_, fun hn => absurd h hn⟩
      rw [hfirst, hc, List.append_assoc]
      rfl
    · refine ⟨rest, ?_, fun _ => rfl⟩
      unfold first
      rw [takeWhile_ne _ h]
  have hline : logLine root timeS timeNs comment.bytes ++ rest = logBody root timeS timeNs first ++ 10 :: tail := by
    rw [logLine_eq, ← logBody_append, ← logBody_append, List.append_assoc]
    exact congrArg _ htail
  have hno10 := logBody_not_mem root hr timeS timeNs first 10 (.inr rfl) h10
  have hno0 := logBody_not_mem root hr timeS timeNs first 0 (.inl rfl) h0
  rw [hline]
  split
  · next hf =>
    refine ⟨tail, ?_, hone⟩
    have hbody : LineBody (logBody root timeS timeNs first) := ⟨hno10, hno0, hf⟩
    rw [readAll_body _ tail hbody, parseLogLine_body root hr]
  · next hf => exact readAll_long _ _ hno10 hno0 (by omega)

end

/-- The comment holds no newline and its line fits the reader's buffer. -/
structure CleanLine (root : Bytes) (comment : CStr) (timeS timeNs : Int) : Prop where
  oneLine : (10 : UInt8) ∉ comment.bytes
  fits : (logLine root timeS timeNs comment.bytes).length < LOG_LINE

/-- A clean record goes onto a sound log as one entry more. -/
theorem readAll_clean (s root : Bytes) (comment : CStr) (timeS timeNs : Int) (hs : SoundLog s)
    (hv : validHash root = true) (hc : CleanLine root comment timeS timeNs) :
    SoundLog (s ++ logLine root timeS timeNs comment.bytes) ∧
      ∃ e, e.hash = root ∧ (readAll (s ++ logLine root timeS timeNs comment.bytes)).1 = (readAll s).1 ++ [e] := by
  have hfirst : comment.bytes.takeWhile (· != 10) = comment.bytes := takeWhile_ne _ hc.oneLine
  have hfits : (logBody root timeS timeNs comment.bytes).length + 1 < LOG_LINE := by
    have hlen := hc.fits
    rw [logLine_eq, logBody_append, List.length_append] at hlen
    exact hlen
  have hrec := readAll_record root hv timeS timeNs comment []
  simp only [hfirst, if_pos hfits, List.append_nil] at hrec
  obtain ⟨rest, hread, hrest⟩ := hrec
  obtain rfl := hrest hc.oneLine
  have hcat := (readAll_append s (logLine root timeS timeNs comment.bytes)).2 hs
  rw [hread] at hcat
  refine ⟨⟨by rw [hcat]; rfl, .inr ?_⟩, _, rfl, by rw [hcat]; rfl⟩
  rw [logLine_eq, logBody_append, ← List.append_assoc, List.getLast?_concat]

/-! ## What a commit leaves -/

section
variable (name : Bytes) (dir : RefFiles)

theorem ref_ne {a b : Bytes} (h : a ≠ b) : name ++ a ≠ name ++ b := fun he => h (List.append_cancel_left he)

theorem ref_ne_tmp {a b : Bytes} (h : a ≠ b ++ dotTmp) : name ++ a ≠ name ++ b ++ dotTmp := by
  rw [List.append_assoc]
  exact ref_ne name h

theorem lockRef_log : (lockRef name dir).lookup (name ++ dotLog) = dir.lookup (name ++ dotLog) := by
  unfold lockRef
  split
  · rfl
  · exact AList.lookup_insert_ne (ref_ne name (by decide))

theorem keepRoot_log : (keepRoot name dir).lookup (name ++ dotLog) = dir.lookup (name ++ dotLog) := by
  unfold keepRoot
  split
  · rfl
  · rw [AList.lookup_insert_ne (ref_ne name (by decide)), AList.lookup_erase_ne (ref_ne_tmp name (by decide))]

theorem setRoot_log (root : Bytes) : (setRoot name root dir).lookup (name ++ dotLog) = dir.lookup (name ++ dotLog) := by
  unfold setRoot
  rw [AList.lookup_insert_ne (ref_ne name (by decide)), AList.lookup_erase_ne (ref_ne_tmp name (by decide))]

end

/-- **A commit** appends its record to the log and makes its root the ref's. -/
theorem casTreeRefCommit_files (refs refs' : Refs) (name root comment : Bytes) (timeS timeNs : Int)
    (h : casTreeRefCommit refs name root comment timeS timeNs = .ok refs') :
    validRefName name = true ∧ validHash root = true ∧
      refFile refs' (name ++ dotLog) =
        some ((refFile refs (name ++ dotLog)).getD [] ++ logLine root timeS timeNs comment) ∧
      refFile refs' (name ++ dotRoot) = some (root ++ [10]) := by
  unfold casTreeRefCommit at h
  split at h
  · cases h
  · next hok =>
    obtain ⟨hn, hv⟩ := not_or.mp hok
    obtain rfl := Except.ok.inj h
    have hold : refFile refs (name ++ dotLog) = (refs.getD ∅).lookup (name ++ dotLog) := by
      cases refs <;> rfl
    refine ⟨by simpa using hn, by simpa using hv, ?_, ?_⟩
    · unfold refFile
      rw [Option.bind_some, setRoot_log, keepRoot_log, appendLog, AList.lookup_insert, lockRef_log, ← hold]
      rfl
    · exact AList.lookup_insert _

/-! ### What a commit leaves alone -/

/-- Files whose names end differently are different. -/
theorem ends_ne (n m a b : Bytes) (ha : a ≠ []) (hb : b ≠ []) (h : a.getLast? ≠ b.getLast?) : n ++ a ≠ m ++ b := by
  intro heq
  have hlast := congrArg List.getLast? heq
  rw [List.getLast?_append_of_ne_nil n ha, List.getLast?_append_of_ne_nil m hb] at hlast
  exact h hlast

section
variable {refs refs' : Refs} {name root comment : Bytes} {timeS timeNs : Int}
  (h : casTreeRefCommit refs name root comment timeS timeNs = .ok refs')
include h

/-- A file that is none of the ref's own stays as it is. -/
theorem casTreeRefCommit_other (file : Bytes)
    (hf : ∀ ext ∈ [dotLock, dotLog, dotPrev, dotPrev ++ dotTmp, dotRoot, dotRoot ++ dotTmp], file ≠ name ++ ext) :
    refFile refs' file = refFile refs file := by
  simp only [List.mem_cons, List.not_mem_nil, or_false, forall_eq_or_imp, forall_eq] at hf
  obtain ⟨hlock, hlog, hprev, hprevTmp, hroot, hrootTmp⟩ := hf
  rw [← List.append_assoc] at hprevTmp hrootTmp
  have hold : refFile refs file = (refs.getD ∅).lookup file := by
    cases refs <;> rfl
  have hkeep : ∀ d : RefFiles, (keepRoot name d).lookup file = d.lookup file := by
    intro d
    unfold keepRoot
    split
    · rfl
    · rw [AList.lookup_insert_ne hprev, AList.lookup_erase_ne hprevTmp]
  have hlocked : ∀ d : RefFiles, (lockRef name d).lookup file = d.lookup file := by
    intro d
    unfold lockRef
    split
    · rfl
    · exact AList.lookup_insert_ne hlock
  unfold casTreeRefCommit at h
  split at h
  · cases h
  · obtain rfl := Except.ok.inj h
    rw [hold]
    show (setRoot name root _).lookup file = _
    unfold setRoot appendLog
    rw [AList.lookup_insert_ne hroot, AList.lookup_erase_ne hrootTmp, hkeep, AList.lookup_insert_ne hlog, hlocked]

theorem commit_other_log (other : Bytes) (hne : other ≠ name) :
    refFile refs' (other ++ dotLog) = refFile refs (other ++ dotLog) := by
  refine casTreeRefCommit_other h _ ?_
  simp only [List.mem_cons, List.not_mem_nil, or_false, forall_eq_or_imp, forall_eq]
  refine ⟨ends_ne _ _ _ _ (by decide) (by decide) (by decide), fun heq => hne (List.append_cancel_right heq),
    ends_ne _ _ _ _ (by decide) (by decide) (by decide), ends_ne _ _ _ _ (by decide) (by decide) (by decide),
    ends_ne _ _ _ _ (by decide) (by decide) (by decide), ends_ne _ _ _ _ (by decide) (by decide) (by decide)⟩

theorem commit_other_root (other : Bytes) (hne : other ≠ name) :
    refFile refs' (other ++ dotRoot) = refFile refs (other ++ dotRoot) := by
  refine casTreeRefCommit_other h _ ?_
  simp only [List.mem_cons, List.not_mem_nil, or_false, forall_eq_or_imp, forall_eq]
  refine ⟨ends_ne _ _ _ _ (by decide) (by decide) (by decide), ends_ne _ _ _ _ (by decide) (by decide) (by decide),
    ends_ne _ _ _ _ (by decide) (by decide) (by decide), ends_ne _ _ _ _ (by decide) (by decide) (by decide),
    fun heq => hne (List.append_cancel_right heq), ends_ne _ _ _ _ (by decide) (by decide) (by decide)⟩

end

/-! ## A log is read back -/

/-- The commits one after another. -/
def commitAll (name : Bytes) (refs : Refs) (l : List Commit) : Except Status Refs :=
  l.foldlM (fun refs c => casTreeRefCommit refs name c.root c.comment.bytes c.timeS c.timeNs) refs

def Commit.record (c : Commit) : Bytes := logLine c.root c.timeS c.timeNs c.comment.bytes

/-- `cas_tree_log_read` returns `CAS_OK` and gives the roots and comments of the commits. -/
def ReadsBack (r : List LogEntry × Status) (l : List Commit) : Prop :=
  r.2 = .ok ∧ r.1.map (fun e => (e.hash, e.comment)) = l.map fun c => (c.root, c.comment.bytes)

/-- The comment holds no newline and does not begin with a blank, and its line fits the reader's buffer. -/
structure FaithfulComment (c : Commit) : Prop where
  oneLine : (10 : UInt8) ∉ c.comment.bytes
  noBlank : NoBlank c.comment.bytes
  fits : c.record.length < LOG_LINE

theorem skipSpace_eq_self_iff (s : Bytes) : skipSpace s = s ↔ NoBlank s := by
  cases s with
  | nil =>
    refine ⟨fun _ => ?_, fun _ => rfl⟩
    intro c cs h
    cases h
  | cons c cs =>
    unfold skipSpace
    rw [List.dropWhile_cons]
    constructor
    · intro h d ds hd
      obtain ⟨rfl, rfl⟩ := List.cons.inj hd
      split at h
      · have hlen := congrArg List.length h
        have hle := (List.dropWhile_sublist isSpace (l := cs)).length_le
        rw [List.length_cons] at hlen
        omega
      · next hs => simpa using hs
    · intro h
      rw [h c cs rfl]
      rfl

theorem commitAll_log (name : Bytes) (l : List Commit) (refs refs' : Refs) (h : commitAll name refs l = .ok refs') :
    (∀ c ∈ l, validHash c.root = true) ∧ (l ≠ [] → validRefName name = true ∧
      refFile refs' (name ++ dotLog) =
        some ((refFile refs (name ++ dotLog)).getD [] ++ l.flatMap Commit.record)) := by
  induction l generalizing refs with
  | nil => exact ⟨by simp, fun h => absurd rfl h⟩
  | cons c l ih =>
    unfold commitAll at h
    rw [List.foldlM_cons] at h
    cases hc : casTreeRefCommit refs name c.root c.comment.bytes c.timeS c.timeNs with
    | error rc =>
      rw [hc] at h
      cases h
    | ok refs1 =>
      rw [hc] at h
      obtain ⟨hn, hv, hlog, -⟩ := casTreeRefCommit_files refs refs1 name _ _ _ _ hc
      obtain ⟨hvs, hrest⟩ := ih refs1 h
      refine ⟨?_, fun _ => ⟨hn, ?_⟩⟩
      · intro x hx
        rcases List.mem_cons.mp hx with rfl | hx
        · exact hv
        · exact hvs x hx
      · by_cases hl : l = []
        · subst hl
          obtain rfl : refs1 = refs' := Except.ok.inj h
          rw [hlog]
          simp [Commit.record]
        · rw [(hrest hl).2, hlog]
          simp [Commit.record, List.append_assoc]

/-- The records of commits read back exactly when every comment is faithful. -/
theorem readsBack_records_iff (l : List Commit) (hv : ∀ c ∈ l, validHash c.root = true) :
    ReadsBack (readAll (l.flatMap Commit.record)) l ↔ ∀ c ∈ l, FaithfulComment c := by
  induction l with
  | nil => simp [ReadsBack, readAll_nil]
  | cons c l ih =>
    have ih := ih fun x hx => hv x (by simp [hx])
    have hrec := readAll_record c.root (hv c (by simp)) c.timeS c.timeNs c.comment (l.flatMap Commit.record)
    have hlen : c.record.length = (logBody c.root c.timeS c.timeNs c.comment.bytes).length + 1 := by
      unfold Commit.record
      rw [logLine_eq, logBody_append, List.length_append, List.length_singleton]
    rw [List.flatMap_cons, List.forall_mem_cons]
    simp only [] at hrec
    split at hrec
    · next hf =>
      obtain ⟨rest', hread, hone⟩ := hrec
      have hread : readAll (c.record ++ l.flatMap Commit.record) = _ := hread
      rw [hread]
      constructor
      · rintro ⟨hst, hmap⟩
        obtain ⟨hhead, htail⟩ := List.cons.inj hmap
        have hcom : skipSpace (c.comment.bytes.takeWhile (· != 10)) = c.comment.bytes := (Prod.mk.inj hhead).2
        have h10 : (10 : UInt8) ∉ c.comment.bytes := by
          intro h
          rw [← hcom] at h
          exact not_mem_takeWhile_ne _ ((List.dropWhile_sublist isSpace).mem h)
        rw [takeWhile_ne _ h10] at hcom hf
        rw [hone h10] at hst htail
        exact ⟨⟨h10, (skipSpace_eq_self_iff _).mp hcom, by omega⟩, ih.mp ⟨hst, htail⟩⟩
      · rintro ⟨hc, hl⟩
        obtain ⟨hst, hmap⟩ := ih.mpr hl
        rw [hone hc.oneLine, takeWhile_ne _ hc.oneLine, (skipSpace_eq_self_iff _).mpr hc.noBlank]
        refine ⟨hst, ?_⟩
        rw [List.map_cons, List.map_cons, hmap]
    · next hf =>
      have hrec : readAll (c.record ++ l.flatMap Commit.record) = _ := hrec
      rw [hrec]
      constructor
      · rintro ⟨hst, -⟩
        cases hst
      · rintro ⟨hc, -⟩
        have := hc.fits
        rw [takeWhile_ne _ hc.oneLine] at hf
        omega

/-- **A log gives back the commits it was made by** exactly when there is one and every comment holds no
newline, does not begin with a blank and lets its line fit the reader's buffer. -/
theorem log_faithful_iff (refs refs' : Refs) (name : Bytes) (l : List Commit)
    (hnew : refFile refs (name ++ dotLog) = none) (hrun : commitAll name refs l = .ok refs') :
    ReadsBack (casTreeLogRead noFaults refs' name) l ↔ l ≠ [] ∧ ∀ c ∈ l, FaithfulComment c := by
  obtain ⟨hv, hlog⟩ := commitAll_log name l refs refs' hrun
  by_cases hl : l = []
  · subst hl
    obtain rfl : refs = refs' := Except.ok.inj hrun
    refine ⟨fun h => ?_, fun h => absurd rfl h.1⟩
    have hst := h.1
    unfold casTreeLogRead at hst
    rw [hnew] at hst
    split at hst <;> cases hst
  · obtain ⟨hn, hfile⟩ := hlog hl
    rw [hnew] at hfile
    rw [casTreeLogRead_noFaults refs' name _ hn hfile]
    exact (readsBack_records_iff l hv).trans ⟨fun h => ⟨hl, h⟩, fun h => h.2⟩

/-- Two commits to a new ref. -/
def twoCommits : List Commit :=
  [⟨zeroHash, lit ['f', 'i', 'r', 's', 't'], 1, 0⟩, ⟨zeroHash, lit ['v', '2', ' '], 2, 0⟩]

theorem log_faithful_two : ∃ refs', commitAll [109] none twoCommits = .ok refs' ∧
    (ReadsBack (casTreeLogRead noFaults refs' [109]) twoCommits ↔
      twoCommits ≠ [] ∧ ∀ c ∈ twoCommits, FaithfulComment c) :=
  ⟨_, rfl, log_faithful_iff none _ [109] twoCommits rfl rfl⟩

/-- The log of a commit with the comment `a`, a newline and `b`, and of one after it. -/
def splitComment : List Commit := [⟨zeroHash, lit ['a', '\n', 'b'], 1, 0⟩, ⟨zeroHash, lit [], 2, 0⟩]

theorem log_not_faithful : ∃ refs', commitAll [109] none splitComment = .ok refs' ∧
    ¬ ReadsBack (casTreeLogRead noFaults refs' [109]) splitComment := by
  refine ⟨_, rfl, ?_⟩
  rintro ⟨hst, -⟩
  revert hst
  decide +kernel

end Smolvfs
