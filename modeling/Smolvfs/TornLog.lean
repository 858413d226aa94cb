import Smolvfs.LogLines

/-!
# A log that was torn

What `cas_tree_log_read` gives after a crash within the append of
`cas_tree_ref_commit`.  The part of a line the crash leaves has no newline, the next
commit appends to it, and the two make one line.

`torn_append_iff`: all the commits are read back, from before and after the crash,
exactly when no comment begins with a blank and either nothing was left of the torn
line or nothing was committed after it.
-/

namespace Smolvfs

open Octets Numeral

/-! ## What a commit is read back as -/

/-- A commit whose line fits the reader's buffer; the times are an `int64_t` and an `int32_t`. -/
structure ShortCommit (c : Commit) : Prop where
  oneLine : (10 : UInt8) ∉ c.comment.bytes
  fits : c.record.length < LOG_LINE
  timeS : -2 ^ 63 ≤ c.timeS ∧ c.timeS < 2 ^ 63
  timeNs : -2 ^ 31 ≤ c.timeNs ∧ c.timeNs < 2 ^ 31

/-- The commit as an entry of the log. -/
def Commit.entry (c : Commit) : LogEntry :=
  ⟨c.root, BitVec.ofInt 64 c.timeS, BitVec.ofInt 32 c.timeNs, c.comment.bytes⟩

/-- The entry the reader reports, which has lost the blanks before the comment. -/
def Commit.reported (c : Commit) : LogEntry := { c.entry with comment := skipSpace c.comment.bytes }

theorem reported_eq_entry_iff (c : Commit) : c.reported = c.entry ↔ NoBlank c.comment.bytes := by
  rw [← skipSpace_eq_self_iff]
  constructor
  · intro h
    exact congrArg LogEntry.comment h
  · intro h
    unfold Commit.reported
    rw [h]
    rfl

section
variable (c : Commit)

/-- The record without its newline. -/
def Commit.body : Bytes := logBody c.root c.timeS c.timeNs c.comment.bytes

theorem Commit.record_eq : c.record = c.body ++ [10] := by
  unfold Commit.record Commit.body
  rw [logLine_eq, logBody_append]

theorem Commit.record_length : c.record.length = c.body.length + 1 := by
  rw [c.record_eq, List.length_append, List.length_singleton]

variable {c} (hv : validHash c.root = true) (hc : ShortCommit c)
include hv

theorem body_noNul : (0 : UInt8) ∉ c.body :=
  logBody_not_mem c.root hv c.timeS c.timeNs c.comment.bytes 0 (.inl rfl) c.comment.noNul

include hc

theorem body_noNewline : (10 : UInt8) ∉ c.body :=
  logBody_not_mem c.root hv c.timeS c.timeNs c.comment.bytes 10 (.inr rfl) hc.oneLine

theorem lineBody_commit : LineBody c.body where
  noNewline := body_noNewline hv hc
  noNul := body_noNul hv
  fits := by
    have hlen := hc.fits
    rw [c.record_length] at hlen
    exact hlen

theorem parseLogLine_commit : parseLogLine c.body = some c.reported := by
  have hs : strtol c.timeS = c.timeS := by
    have := hc.timeS
    unfold strtol
    omega
  have hns : strtol c.timeNs = c.timeNs := by
    have := hc.timeNs
    unfold strtol
    omega
  unfold Commit.body
  rw [parseLogLine_body c.root hv, hs, hns]
  rfl

end

/-- Records at the front of a log are reported one after another. -/
theorem readAll_records (l : List Commit) (rest : Bytes) (hv : ∀ c ∈ l, validHash c.root = true)
    (hc : ∀ c ∈ l, ShortCommit c) : readAll (l.flatMap Commit.record ++ rest) =
      (l.map Commit.reported ++ (readAll rest).1, (readAll rest).2) := by
  induction l with
  | nil => rfl
  | cons c l ih =>
    have ih := ih (fun x hx => hv x (by simp [hx])) fun x hx => hc x (by simp [hx])
    have hline := lineBody_commit (hv c (by simp)) (hc c (by simp))
    have hsplit : (c :: l).flatMap Commit.record ++ rest = c.body ++ 10 :: (l.flatMap Commit.record ++ rest) := by
      rw [List.flatMap_cons, c.record_eq]
      simp
    rw [hsplit, readAll_body _ _ hline, parseLogLine_commit (hv c (by simp)) (hc c (by simp)), ih]
    rfl

/-! ## The torn line -/

/-- A line that ends with the file is passed over. -/
theorem readAll_torn_ok (t : Bytes) (h10 : (10 : UInt8) ∉ t) (h0 : (0 : UInt8) ∉ t) (hl : t.length < LOG_LINE - 1) :
    readAll t = ([], .ok) := by
  by_cases ht : t = []
  · rw [ht]
    rfl
  · have hline : (CStr.ofBuf t).bytes = t := takeWhile_ne _ h0
    have hlast : t.getLast? ≠ some 10 := fun hl => h10 (List.mem_of_getLast? hl)
    rw [readAll_eq t ht, logChunk_torn t h10 hl]
    simp only [hline]
    rw [if_pos ⟨ht, hlast⟩, if_pos ⟨hl, h10⟩]

theorem printInt_not_space (n : Int) : ∃ c ∈ printInt n, isSpace c = false := by
  have hne : printInt n ≠ [] := by
    unfold printInt
    split
    · exact List.cons_ne_nil _ _
    · exact printNat_ne_nil 10 _ (by omega)
  obtain ⟨c, cs, hcs⟩ := List.exists_cons_of_ne_nil hne
  refine ⟨c, by simp [hcs], ?_⟩
  rcases printInt_chars n c (by simp [hcs]) with rfl | hd
  · rfl
  · exact (isDigit_ne 10 c hd).1

section
variable (c : Commit) (hv : validHash c.root = true) (t : Bytes) (ht : t ≠ [])
include hv ht

/-- **A record behind something else on its line** is not what the line parses as: a hash that is cut is no
hash, and one that is whole takes the record's own hash and times into what follows it. -/
theorem parseLogLine_merged (e : LogEntry) (h : parseLogLine (t ++ c.body) = some e) :
    c.comment.bytes.length < e.comment.length := by
  obtain ⟨hlen, hhex⟩ := (validHash_iff c.root).mp hv
  have hpos : 0 < t.length := List.length_pos_of_ne_nil ht
  unfold parseLogLine at h
  split at h
  · cases h
  · split at h
    · cases h
    · next hblank =>
      obtain ⟨⟨timeS, s⟩, hs, h⟩ := Option.bind_eq_some_iff.mp h
      obtain ⟨⟨timeNs, s'⟩, hs', rfl⟩ := Option.map_eq_some_iff.mp h
      -- the blank after the hash is one of the torn line's
      have hlong : CAS_HASH_HEX + 1 ≤ t.length := by
        by_contra hshort
        have hin : CAS_HASH_HEX - t.length < c.root.length := by
          unfold CAS_HASH_HEX at hshort ⊢
          omega
        have hslice : slice (t ++ c.body) CAS_HASH_HEX 1 = [c.root[CAS_HASH_HEX - t.length]] := by
          unfold slice Commit.body logBody
          rw [List.drop_append, List.drop_of_length_le (show t.length ≤ CAS_HASH_HEX by omega), List.nil_append,
            List.drop_append_of_le_length (by omega), List.drop_eq_getElem_cons hin]
          rfl
        rw [hslice] at hblank
        have h32 : c.root[CAS_HASH_HEX - t.length] = 32 := by simpa using hblank
        exact (hexVal_not_space _ (hhex _ (List.getElem_mem hin))).2 h32
      have hroot : ∃ x ∈ t.drop (CAS_HASH_HEX + 1) ++ c.root, isSpace x = false := by
        obtain ⟨x, xs, hx⟩ := List.exists_cons_of_length_pos (show 0 < c.root.length by omega)
        exact ⟨x, by simp [hx], (hexVal_not_space x (hhex x (by simp [hx]))).1⟩
      -- each number ends before a blank of the record, and the comment is what is left
      rw [List.drop_append_of_le_length hlong, Commit.body, logBody, ← List.append_assoc] at hs
      obtain ⟨u, rfl⟩ := scanInt_stops 10 _ _ s timeS hroot hs
      obtain ⟨x, hx, hxs⟩ := printInt_not_space c.timeS
      rw [show u ++ 32 :: (printInt c.timeS ++ 32 :: (printInt c.timeNs ++ 32 :: c.comment.bytes)) =
        (u ++ 32 :: printInt c.timeS) ++ 32 :: (printInt c.timeNs ++ 32 :: c.comment.bytes) by simp] at hs'
      obtain ⟨u', rfl⟩ := scanInt_stops 10 _ _ s' timeNs ⟨x, by simp [hx], hxs⟩ hs'
      obtain ⟨y, hy, hys⟩ := printInt_not_space c.timeNs
      obtain ⟨hskip, -⟩ := skipSpace_append (u' ++ 32 :: printInt c.timeNs) (32 :: c.comment.bytes)
        ⟨y, by simp [hy], hys⟩
      show _ < (skipSpace (u' ++ 32 :: (printInt c.timeNs ++ 32 :: c.comment.bytes))).length
      rw [show u' ++ 32 :: (printInt c.timeNs ++ 32 :: c.comment.bytes) =
        (u' ++ 32 :: printInt c.timeNs) ++ 32 :: c.comment.bytes by simp, hskip, List.length_append, List.length_cons]
      omega

/-- The line of a torn record and the one appended to it. -/
theorem readAll_merged (hc : ShortCommit c) (h10 : (10 : UInt8) ∉ t) (h0 : (0 : UInt8) ∉ t) (rest : Bytes) :
    (readAll (t ++ (c.record ++ rest))).2 = .err ∨
      ∃ e : LogEntry, c.comment.bytes.length < e.comment.length ∧
        readAll (t ++ (c.record ++ rest)) = (e :: (readAll rest).1, (readAll rest).2) := by
  have hsplit : t ++ (c.record ++ rest) = (t ++ c.body) ++ 10 :: rest := by
    rw [c.record_eq]
    simp
  have hno10 : (10 : UInt8) ∉ t ++ c.body := by simp [h10, body_noNewline hv hc]
  have hno0 : (0 : UInt8) ∉ t ++ c.body := by simp [h0, body_noNul hv]
  rw [hsplit]
  by_cases hf : (t ++ c.body).length + 1 < LOG_LINE
  · rw [readAll_body _ _ ⟨hno10, hno0, hf⟩]
    cases hp : parseLogLine (t ++ c.body) with
    | none => exact .inl rfl
    | some e => exact .inr ⟨e, parseLogLine_merged c hv t ht e hp, rfl⟩
  · rw [readAll_long _ _ hno10 hno0 (by omega)]
    exact .inl rfl

end

/-! ## The whole log -/

/-- All the commits are read back, in order, as they were made. -/
def ReportsAll (r : List LogEntry × Status) (l : List Commit) : Prop :=
  r.2 = .ok ∧ (l.map Commit.entry).Sublist r.1

/-- Part of a record, but not all of it. -/
structure TornPart (t : Bytes) (torn : Commit) : Prop where
  part : t <+: torn.record
  strict : t ≠ torn.record

theorem TornPart.body {t : Bytes} {torn : Commit} (h : TornPart t torn) : t <+: torn.body := by
  have hpart := h.part
  rw [torn.record_eq] at hpart
  rcases List.prefix_concat_iff.mp hpart with heq | hpre
  · exact absurd (heq.trans torn.record_eq.symm) h.strict
  · exact hpre

theorem map_reported_eq_entry (l : List Commit) (h : l.map Commit.reported = l.map Commit.entry) :
    ∀ c ∈ l, NoBlank c.comment.bytes := fun c hc =>
  (reported_eq_entry_iff c).mp (List.map_inj_left.mp h c hc)

/-- A list of the entries' own length that has them all is them. -/
theorem ReportsAll.eq {r : List LogEntry × Status} {l : List Commit} (h : ReportsAll r l)
    (hlen : r.1.length = l.length) :
    r.1 = l.map Commit.entry := (h.2.eq_of_length (by rw [List.length_map, hlen])).symm

section
variable (before after : List Commit) (torn : Commit) (t : Bytes)

/-- The log as the file holds it. -/
theorem readAll_torn_append_iff (hv : ∀ c ∈ before ++ torn :: after, validHash c.root = true)
    (hc : ∀ c ∈ before ++ torn :: after, ShortCommit c) (ht : TornPart t torn) :
    ReportsAll (readAll (before.flatMap Commit.record ++ (t ++ after.flatMap Commit.record))) (before ++ after) ↔
      (∀ c ∈ before ++ after, NoBlank c.comment.bytes) ∧ (t = [] ∨ after = []) := by
  have hvb : ∀ c ∈ before, validHash c.root = true := fun c h => hv c (by simp [h])
  have hva : ∀ c ∈ after, validHash c.root = true := fun c h => hv c (by simp [h])
  have hcb : ∀ c ∈ before, ShortCommit c := fun c h => hc c (by simp [h])
  have hca : ∀ c ∈ after, ShortCommit c := fun c h => hc c (by simp [h])
  have hvt := hv torn (by simp)
  have hct := hc torn (by simp)
  have h10 : (10 : UInt8) ∉ t := fun h => body_noNewline hvt hct (ht.body.subset h)
  have h0 : (0 : UInt8) ∉ t := fun h => body_noNul hvt (ht.body.subset h)
  have hlen : t.length < LOG_LINE - 1 := by
    have hle := ht.body.length_le
    have hfits := hct.fits
    rw [torn.record_length] at hfits
    omega
  rw [readAll_records before _ hvb hcb]
  by_cases hcase : t = [] ∨ after = []
  · -- the torn part, if there is one, ends the file
    have hread : readAll (t ++ after.flatMap Commit.record) = (after.map Commit.reported, .ok) := by
      rcases hcase with rfl | rfl
      · have h := readAll_records after [] hva hca
        rw [List.append_nil, readAll_nil] at h
        rw [List.nil_append, h, List.append_nil]
      · rw [List.flatMap_nil, List.append_nil, readAll_torn_ok t h10 h0 hlen]
        rfl
    rw [hread]
    simp only [← List.map_append]
    constructor
    · intro h
      exact ⟨map_reported_eq_entry _ (h.eq (by simp)), hcase⟩
    · rintro ⟨hno, -⟩
      refine ⟨rfl, ?_⟩
      rw [List.map_congr_left fun c hc => (reported_eq_entry_iff c).mpr (hno c hc)]
  · obtain ⟨hne, hafter⟩ := not_or.mp hcase
    obtain ⟨c, after, rfl⟩ := List.exists_cons_of_ne_nil hafter
    refine ⟨fun h => ?_, fun h => absurd h.2 hcase⟩
    have hrest := readAll_records after [] (fun x hx => hva x (by simp [hx])) fun x hx => hca x (by simp [hx])
    rw [List.append_nil, readAll_nil, List.append_nil] at hrest
    rw [List.flatMap_cons] at h
    rcases readAll_merged c (hva c (by simp)) t hne (hca c (by simp)) h10 h0 (after.flatMap Commit.record) with
      herr | ⟨e, hlong, hread⟩
    · exact absurd (herr.symm.trans h.1) (by simp)
    · rw [hread, hrest] at h
      have heq := h.eq (by simp)
      rw [List.map_append] at heq
      have htail := List.append_inj_right heq (by simp)
      obtain ⟨rfl, -⟩ := List.cons.inj htail
      exact absurd hlong (Nat.lt_irrefl _)

end

/-- **A torn append costs at most itself** exactly when nothing of it is left or nothing is committed after
it, and no comment begins with a blank. -/
theorem torn_append_iff (name : Bytes) (refs refs1 refs2 refs3 : Refs) (before after : List Commit) (torn : Commit)
    (t : Bytes) (hn : validRefName name = true) (hnew : refFile refs (name ++ dotLog) = none)
    (hshort : ∀ c ∈ before ++ torn :: after, ShortCommit c) (hroot : validHash torn.root = true)
    (hbefore : commitAll name refs before = .ok refs1) (ht : TornPart t torn)
    (hcrash : refFile refs2 (name ++ dotLog) = some ((refFile refs1 (name ++ dotLog)).getD [] ++ t))
    (hafter : commitAll name refs2 after = .ok refs3) :
    ReportsAll (casTreeLogRead noFaults refs3 name) (before ++ after) ↔
      (∀ c ∈ before ++ after, NoBlank c.comment.bytes) ∧ (t = [] ∨ after = []) := by
  obtain ⟨hvb, hlogb⟩ := commitAll_log name before refs refs1 hbefore
  obtain ⟨hva, hloga⟩ := commitAll_log name after refs2 refs3 hafter
  have hfile1 : (refFile refs1 (name ++ dotLog)).getD [] = before.flatMap Commit.record := by
    by_cases hb : before = []
    · subst hb
      obtain rfl : refs = refs1 := Except.ok.inj hbefore
      rw [hnew]
      rfl
    · rw [(hlogb hb).2, hnew, Option.getD_some, Option.getD_none, List.nil_append]
  have hfile3 : refFile refs3 (name ++ dotLog) =
      some (before.flatMap Commit.record ++ (t ++ after.flatMap Commit.record)) := by
    rw [hfile1] at hcrash
    by_cases ha : after = []
    · subst ha
      obtain rfl : refs2 = refs3 := Except.ok.inj hafter
      rw [hcrash]
      simp
    · rw [(hloga ha).2, hcrash]
      simp
  have hv : ∀ c ∈ before ++ torn :: after, validHash c.root = true := by
    intro c hc
    rcases List.mem_append.mp hc with h | h
    · exact hvb c h
    · rcases List.mem_cons.mp h with rfl | h
      · exact hroot
      · exact hva c h
  rw [casTreeLogRead_noFaults refs3 name _ hn hfile3]
  exact readAll_torn_append_iff before after torn t hv hshort ht

/-! ## One octet of a line -/

def earlyCommit : Commit := ⟨zeroHash, lit ['v', '1'], 1, 0⟩

def lateCommit : Commit := ⟨zeroHash, lit ['v', '2'], 2, 0⟩

/-- The log of one commit and the first octet of another. -/
def tornRefs : Refs := some ((∅ : RefFiles).insert ([109] ++ dotLog) (earlyCommit.record ++ [48]))

theorem earlyCommit_short : ShortCommit earlyCommit := by
  constructor <;> decide +kernel

theorem lateCommit_short : ShortCommit lateCommit := by
  constructor <;> decide +kernel

theorem tornPart_octet : TornPart [48] lateCommit := by
  constructor <;> decide +kernel

theorem torn_append_octet : ∃ refs1 refs3, commitAll [109] none [earlyCommit] = .ok refs1 ∧
    commitAll [109] tornRefs [lateCommit] = .ok refs3 ∧
    (ReportsAll (casTreeLogRead noFaults refs3 [109]) ([earlyCommit] ++ [lateCommit]) ↔
      (∀ c ∈ [earlyCommit] ++ [lateCommit], NoBlank c.comment.bytes) ∧ (([48] : Bytes) = [] ∨ [lateCommit] = [])) := by
  refine ⟨_, _, rfl, rfl, torn_append_iff [109] none _ tornRefs _ [earlyCommit] [lateCommit] lateCommit [48] (by decide)
    rfl ?_ (by decide +kernel) rfl tornPart_octet rfl rfl⟩
  intro c hc
  simp only [List.mem_cons, List.mem_append, List.not_mem_nil, or_false] at hc
  rcases hc with rfl | rfl | rfl
  · exact earlyCommit_short
  · exact lateCommit_short
  · exact lateCommit_short

/-- The commit after the crash is not read back, nor is the end of the log reached. -/
theorem torn_append_lost : TornPart [48] lateCommit ∧ ShortCommit earlyCommit ∧ ShortCommit lateCommit ∧
    ∃ refs1 refs3, commitAll [109] none [earlyCommit] = .ok refs1 ∧
      refFile tornRefs ([109] ++ dotLog) = some ((refFile refs1 ([109] ++ dotLog)).getD [] ++ [48]) ∧
      commitAll [109] tornRefs [lateCommit] = .ok refs3 ∧
      ¬ ReportsAll (casTreeLogRead noFaults refs3 [109]) [earlyCommit, lateCommit] := by
  refine ⟨tornPart_octet, earlyCommit_short, lateCommit_short, _, _, rfl, rfl, rfl, ?_⟩
  rintro ⟨hst, -⟩
  revert hst
  decide +kernel

end Smolvfs
