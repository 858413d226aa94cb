import Mathlib.Data.List.Sort
import Smolvfs.Lib.Numeral
import Smolvfs.Header

/-!
# Directory entries and the text form of a tree

`struct cas_tree_entry`, the checks of `cas_tree_dir_add`, and the text encoding:
`tree_serialize`, `parse_entry` with the `sscanf` it rests on, `tree_text_load`,
`tree_text_lookup` and `tree_text_verify`.  Numbers keep the widths of the
source, so what does not fit is saturated by the scan and cut by the store.

A line of a printable entry parses back (`parseEntry_line`), so the text of a
strictly ascending directory loads as that directory (`treeTextLoad_serialize`)
and a lookup in it finds what the list has (`treeTextLookup_serialize`).
-/

namespace Smolvfs

open Octets Numeral

/-! ## Entries -/

/-- `struct cas_tree_entry`; `hash` is the C string of the child's address. -/
structure Entry where
  mode : BitVec 32
  uid : BitVec 32
  gid : BitVec 32
  mtimeS : BitVec 64
  mtimeNs : BitVec 32
  hash : Bytes
  name : CStr
  deriving DecidableEq

/-- `struct cas_tree_dir` -/
abbrev Dir := List Entry

def CAS_TREE_NAME_MAX : Nat := 255
def CAS_TREE_S_IFMT : BitVec 32 := 0o170000#32
def CAS_TREE_S_IFDIR : BitVec 32 := 0o040000#32

/-- The entry's mode says that its child is a directory. -/
def Entry.isDir (e : Entry) : Bool := e.mode &&& CAS_TREE_S_IFMT == CAS_TREE_S_IFDIR

/-- `name_cmp` -/
def nameCmp (a b : CStr) : Ordering := lexcmp a.bytes b.bytes

/-- The codepoint of a lead and its continuation bytes is none that `valid_utf8` refuses. -/
def utf8Point (lead : UInt8) (least : Nat) (tail : Bytes) : Bool :=
  let cp := tail.foldl (fun cp cc => cp * 64 + (cc &&& 0x3f).toNat) lead.toNat
  tail.all (fun cc => cc &&& 0xc0 == 0x80) && decide (least ≤ cp) &&
    !(decide (0xd800 ≤ cp) && decide (cp ≤ 0xdfff)) && decide (cp ≤ 0x10ffff)

/-- `valid_utf8` -/
def validUtf8 : Bytes → Bool
  | [] => true
  | c :: rest =>
    if c < 0x80 then validUtf8 rest
    else if c &&& 0xe0 = 0xc0 then
      match rest with
      | c1 :: rest => utf8Point (c &&& 0x1f) 0x80 [c1] && validUtf8 rest
      | _ => false
    else if c &&& 0xf0 = 0xe0 then
      match rest with
      | c1 :: c2 :: rest => utf8Point (c &&& 0x0f) 0x800 [c1, c2] && validUtf8 rest
      | _ => false
    else if c &&& 0xf8 = 0xf0 then
      match rest with
      | c1 :: c2 :: c3 :: rest => utf8Point (c &&& 0x07) 0x10000 [c1, c2, c3] && validUtf8 rest
      | _ => false
    else false

/-- What `cas_tree_dir_add` asks of a name. -/
def validName (name : CStr) : Bool :=
  decide (name.bytes.length ≠ 0) && decide (name.bytes.length ≤ CAS_TREE_NAME_MAX) &&
    !(name.bytes.contains 47 || name.bytes.contains 10) && validUtf8 name.bytes

/-- `cas_tree_dir_add`; `noMem` says that the array cannot grow. -/
def casTreeDirAdd (noMem : Bool) (dir : Dir) (e : Entry) : Except Status Dir :=
  if validName e.name = false then .error .err
  else if noMem then .error .enomem
  else .ok (dir ++ [e])

/-! ## Writing -/

/-- `"%06o %d %d %lld %d "` -/
def lineNumbers (e : Entry) : Bytes :=
  padZero 6 (printNat 8 e.mode.toNat) ++ (32 :: (printInt e.uid.toInt ++ (32 :: (printInt e.gid.toInt ++
    (32 :: (printInt e.mtimeS.toInt ++ (32 :: (printInt e.mtimeNs.toInt ++ [32]))))))))

/-- The numbers, then `"%s %s\n"`. -/
def entryLine (e : Entry) : Bytes := lineNumbers e ++ (e.hash ++ (32 :: (e.name.bytes ++ [10])))

/-- `tree_serialize` -/
def treeSerialize (dir : Dir) : Bytes := 37 :: dir.flatMap entryLine

/-! ## Parsing -/

/-- `strtol` and `strtoll` at the ends of their range. -/
def strtol (v : Int) : Int := max (-2 ^ 63) (min (2 ^ 63 - 1) v)

/-- `strtoul` likewise; a minus sign negates in the unsigned type. -/
def strtoul (v : Int) : Int := if v.natAbs < 2 ^ 64 then v else 2 ^ 64 - 1

/-- `sscanf(line, "%o %d %d %lld %d %n", …)`: the five numbers and what `%n` counts. -/
def scanEntry (line : Bytes) :
    Option (BitVec 32 × BitVec 32 × BitVec 32 × BitVec 64 × BitVec 32 × Nat) :=
  let s := line.takeWhile (· != 0)
  (scanInt 8 s).bind fun (mode, s1) =>
  (scanInt 10 s1).bind fun (uid, s2) =>
  (scanInt 10 s2).bind fun (gid, s3) =>
  (scanInt 10 s3).bind fun (mtimeS, s4) =>
  (scanInt 10 s4).map fun (mtimeNs, s5) =>
    (BitVec.ofInt 32 (strtoul mode), BitVec.ofInt 32 (strtol uid), BitVec.ofInt 32 (strtol gid),
      BitVec.ofInt 64 (strtol mtimeS), BitVec.ofInt 32 (strtol mtimeNs), s.length - (skipSpace s5).length)

/-- `parse_entry`: `line` goes on to the end of the object, its first `linelen` octets are the line. -/
def parseEntry (line : Bytes) (linelen : Nat) : Option Entry :=
  match scanEntry line with
  | none => none
  | some (mode, uid, gid, mtimeS, mtimeNs, n) =>
    if n + CAS_HASH_HEX + 2 > linelen then none
    else if slice line (n + CAS_HASH_HEX) 1 ≠ [32] then none
    else
      let namelen := linelen - (n + CAS_HASH_HEX + 1)
      if namelen = 0 ∨ namelen > CAS_TREE_NAME_MAX then none
      else
        some ⟨mode, uid, gid, mtimeS, mtimeNs, (CStr.ofBuf (slice line n CAS_HASH_HEX)).bytes,
          CStr.ofBuf (slice line (n + CAS_HASH_HEX + 1) namelen)⟩

/-- The length of the line at the front, up to `memchr`'s newline. -/
def lineLen (p : Bytes) : Option Nat :=
  if (10 : UInt8) ∈ p then some (p.takeWhile (· != 10)).length else none

/-- The name does not come after the one of the last entry. -/
def outOfOrder (dir : Dir) (name : CStr) : Bool :=
  dir.getLast?.any fun last => decide (nameCmp last.name name ≠ .lt)

/-- The loop of `tree_text_load`; every line takes at least its newline off the `fuel` octets. -/
def textLoad (noMem : Bool) : Nat → Bytes → Dir → Except Status Dir
  | 0, _, dir => .ok dir
  | fuel + 1, p, dir =>
    if p = [] then .ok dir
    else
      match lineLen p with
      | none => .error .err
      | some linelen =>
        match parseEntry p linelen with
        | none => .error .err
        | some e =>
          if outOfOrder dir e.name then .error .err
          else
            match casTreeDirAdd noMem dir e with
            | .error _ => .error .err
            | .ok dir => textLoad noMem fuel (p.drop (linelen + 1)) dir

/-- `tree_text_load` -/
def treeTextLoad (noMem : Bool) (data : Bytes) : Except Status Dir :=
  match data with
  | [] => .error .err
  | c :: p => if c ≠ 37 then .error .err else textLoad noMem p.length p []

/-- The loop of `tree_text_lookup`. -/
def textLookup (name : CStr) : Nat → Bytes → Option CStr → Except Status Entry
  | 0, _, _ => .error .enotfound
  | fuel + 1, p, prev =>
    if p = [] then .error .enotfound
    else
      match lineLen p with
      | none => .error .err
      | some linelen =>
        match parseEntry p linelen with
        | none => .error .err
        | some e =>
          if (prev.any fun last => decide (nameCmp last e.name ≠ .lt)) = true then .error .err
          else
            match nameCmp e.name name with
            | .eq => .ok e
            | .gt => .error .enotfound
            | .lt => textLookup name fuel (p.drop (linelen + 1)) (some e.name)

/-- `tree_text_lookup` -/
def treeTextLookup (data : Bytes) (name : CStr) : Except Status Entry :=
  match data with
  | [] => .error .err
  | c :: p => if c ≠ 37 then .error .err else textLookup name p.length p none

/-- `tree_text_verify`; `noMem` says that its allocations fail. -/
def treeTextVerify (noMem : Bool) (data : Bytes) : FsckStatus :=
  match treeTextLoad noMem data with
  | .error _ => .corrupt
  | .ok dir =>
    if noMem then .corrupt
    else if treeSerialize dir = data then .ok else .corrupt

/-! ## A line parses back -/

/-- The characters of a line's numbers: digits, signs and blanks. -/
theorem printInt_chars (n : Int) : ∀ c ∈ printInt n, c = 45 ∨ isDigit 10 c = true := by
  have hd := printNat_isDigit 10 n.natAbs (by omega) (by omega)
  intro c hc
  unfold printInt at hc
  split at hc
  · rcases List.mem_cons.mp hc with rfl | hc
    · exact .inl rfl
    · exact .inr (hd c hc)
  · exact .inr (hd c hc)

theorem padZero_chars (width n : Nat) : ∀ c ∈ padZero width (printNat 8 n), isDigit 10 c = true := by
  intro c hc
  rcases List.mem_append.mp hc with hc | hc
  · rw [List.eq_of_mem_replicate hc]
    decide
  · have := printNat_isDigit 8 n (by omega) (by omega) c hc
    unfold isDigit at this ⊢
    simp only [Bool.and_eq_true, decide_eq_true_eq] at this ⊢
    omega

theorem lineNumbers_chars (e : Entry) : ∀ c ∈ lineNumbers e, c = 32 ∨ c = 45 ∨ isDigit 10 c = true := by
  intro c hc
  unfold lineNumbers at hc
  simp only [List.mem_append, List.mem_cons, List.not_mem_nil, or_false] at hc
  rcases hc with hc | rfl | hc | rfl | hc | rfl | hc | rfl | hc | rfl
  · exact .inr (.inr (padZero_chars 6 _ c hc))
  · exact .inl rfl
  · exact .inr (printInt_chars _ c hc)
  · exact .inl rfl
  · exact .inr (printInt_chars _ c hc)
  · exact .inl rfl
  · exact .inr (printInt_chars _ c hc)
  · exact .inl rfl
  · exact .inr (printInt_chars _ c hc)
  · exact .inl rfl

theorem lineNumbers_ne (e : Entry) : ∀ c ∈ lineNumbers e, c ≠ 0 ∧ c ≠ 10 := by
  intro c hc
  rcases lineNumbers_chars e c hc with rfl | rfl | hd
  · decide
  · decide
  · obtain ⟨-, -, -, h0, h10, -⟩ := isDigit_ne 10 c hd
    exact ⟨h0, h10⟩

theorem strtol_of_bitVec (w : Nat) (hw : w ≤ 64) (x : BitVec w) : strtol x.toInt = x.toInt := by
  have h1 := x.toInt_lt
  have h2 := x.le_toInt
  have hp : (2 : Int) ^ (w - 1) ≤ 2 ^ 63 := by
    exact_mod_cast Nat.pow_le_pow_right (show 0 < 2 by omega) (show w - 1 ≤ 63 by omega)
  unfold strtol
  omega

theorem strtoul_of_bitVec (x : BitVec 32) : strtoul (x.toNat : Int) = x.toNat := by
  have := x.isLt
  unfold strtoul
  rw [if_pos (by omega)]

/-- `t` does not begin with a blank. -/
def NoBlank (t : Bytes) : Prop := ∀ c cs, t = c :: cs → isSpace c = false

theorem skipSpace_noBlank (t : Bytes) (h : NoBlank t) : skipSpace (32 :: t) = t := by
  have h1 : skipSpace (32 :: t) = skipSpace t := by simp [skipSpace, isSpace]
  rw [h1]
  cases t with
  | nil => rfl
  | cons c cs =>
    unfold skipSpace
    rw [List.dropWhile_cons, h c cs rfl]
    rfl

/-- The scan reads the numbers of a line and stops at what follows them. -/
theorem scanEntry_line (e : Entry) (t : Bytes) (h : NoBlank t) :
    scanEntry (lineNumbers e ++ t) =
      some (e.mode, e.uid, e.gid, e.mtimeS, e.mtimeNs, (lineNumbers e).length) := by
  have hcstr : (lineNumbers e ++ t).takeWhile (· != 0) = lineNumbers e ++ t.takeWhile (· != 0) :=
    List.takeWhile_append_of_pos fun c hc => by simpa using (lineNumbers_ne e c hc).1
  have ht : NoBlank (t.takeWhile (· != 0)) := by
    intro c cs hc
    cases t with
    | nil => cases hc
    | cons d ds =>
      rw [List.takeWhile_cons] at hc
      split at hc
      · obtain ⟨rfl, -⟩ := List.cons.inj hc
        exact h _ ds rfl
      · cases hc
  have hlen : (lineNumbers e ++ t.takeWhile (· != 0)).length - (t.takeWhile (· != 0)).length =
      (lineNumbers e).length := by
    rw [List.length_append]
    omega
  unfold scanEntry
  simp only [hcstr]
  generalize t.takeWhile (· != 0) = r at *
  have hmode : scanInt 8 (lineNumbers e ++ r) = some ((e.mode.toNat : Int),
      32 :: (printInt e.uid.toInt ++ (32 :: (printInt e.gid.toInt ++ (32 :: (printInt e.mtimeS.toInt ++
        (32 :: (printInt e.mtimeNs.toInt ++ 32 :: r)))))))) := by
    unfold lineNumbers
    simp only [List.append_assoc, List.cons_append, List.nil_append]
    exact scanInt_padded 8 6 _ (by omega) (by omega) _ (stopsDigits_space 8 _)
  rw [hmode]
  simp only [Option.bind_some, scanInt_space]
  rw [scanInt_printInt _ _ (stopsDigits_space 10 _)]
  simp only [Option.bind_some, scanInt_space]
  rw [scanInt_printInt _ _ (stopsDigits_space 10 _)]
  simp only [Option.bind_some, scanInt_space]
  rw [scanInt_printInt _ _ (stopsDigits_space 10 _)]
  simp only [Option.bind_some, scanInt_space]
  rw [scanInt_printInt _ _ (stopsDigits_space 10 _)]
  simp only [Option.map_some, skipSpace_noBlank r ht, strtoul_of_bitVec, strtol_of_bitVec 32 (by omega),
    strtol_of_bitVec 64 (by omega), BitVec.ofInt_toInt, hlen]
  rw [show BitVec.ofInt 32 (e.mode.toNat : Int) = e.mode by simp]

/-- An entry as a stored tree has them: a lower-case address and a name a directory takes. -/
structure Entry.Printable (e : Entry) : Prop where
  hash : LowerHash e.hash
  name : validName e.name = true

/-- An entry whose line can be read back: 64 characters of any kind for the address, not led by a blank. -/
structure Entry.Written (e : Entry) : Prop where
  length : e.hash.length = CAS_HASH_HEX
  noNul : (0 : UInt8) ∉ e.hash
  noNewline : (10 : UInt8) ∉ e.hash
  noBlank : NoBlank e.hash
  name : validName e.name = true

theorem validName_spec (name : CStr) (h : validName name = true) :
    name.bytes ≠ [] ∧ name.bytes.length ≤ 255 ∧ (47 : UInt8) ∉ name.bytes ∧ (10 : UInt8) ∉ name.bytes := by
  unfold validName CAS_TREE_NAME_MAX at h
  simp only [Bool.and_eq_true, decide_eq_true_eq, Bool.not_eq_true', Bool.or_eq_false_iff,
    List.contains_eq_mem, decide_eq_false_iff_not] at h
  obtain ⟨⟨⟨h1, h2⟩, h3, h4⟩, -⟩ := h
  exact ⟨fun hn => h1 (by rw [hn]; rfl), h2, h3, h4⟩

theorem lowerHex_range (c : UInt8) (h : isLowerHex c = true) :
    48 ≤ c.toNat ∧ c.toNat ≤ 57 ∨ 97 ≤ c.toNat ∧ c.toNat ≤ 102 := by
  unfold isLowerHex at h
  simpa using h

theorem LowerHash.ne_of_mem {hash : Bytes} (h : LowerHash hash) (c d : UInt8) (hc : c ∈ hash)
    (hd : isLowerHex d = false) : c ≠ d := by
  rintro rfl
  rw [h.2 c hc] at hd
  cases hd

theorem LowerHash.noBlank {hash : Bytes} (h : LowerHash hash) : NoBlank hash := by
  intro c cs hc
  have hm : c ∈ hash := by
    rw [hc]
    exact List.mem_cons_self
  have hr := lowerHex_range c (h.2 c hm)
  unfold isSpace
  simp only [Bool.or_eq_false_iff, beq_eq_false_iff_ne, ne_eq, Bool.and_eq_false_iff, decide_eq_false_iff_not]
  refine ⟨h.ne_of_mem c 32 hm (by decide), by omega⟩

theorem Entry.Printable.written {e : Entry} (h : e.Printable) : e.Written where
  length := h.hash.1
  noNul hm := h.hash.ne_of_mem 0 0 hm (by decide) rfl
  noNewline hm := h.hash.ne_of_mem 10 10 hm (by decide) rfl
  noBlank := h.hash.noBlank
  name := h.name

theorem ofBuf_of_noNul (b : Bytes) (h : (0 : UInt8) ∉ b) : (CStr.ofBuf b).bytes = b := takeWhile_ne b h

theorem noBlank_append (s t : Bytes) (hs : s ≠ []) (h : NoBlank s) : NoBlank (s ++ t) := by
  intro c cs hc
  cases s with
  | nil => exact absurd rfl hs
  | cons d ds =>
    obtain ⟨rfl, -⟩ := List.cons.inj hc
    exact h _ ds rfl

/-- The length of a line, without its newline. -/
theorem length_entryLine (e : Entry) (h : e.Written) :
    (entryLine e).length = (lineNumbers e).length + 66 + e.name.bytes.length := by
  have hl : e.hash.length = 64 := h.length
  simp only [entryLine, List.length_append, List.length_cons, List.length_nil]
  omega

/-- **A line parses back** to the entry it was printed from, whatever follows it. -/
theorem parseEntry_line (e : Entry) (h : e.Written) (rest : Bytes) :
    parseEntry (entryLine e ++ rest) ((entryLine e).length - 1) = some e := by
  have hl : e.hash.length = 64 := h.length
  have hhne : e.hash ≠ [] := List.length_pos_iff.mp (by omega)
  have hlen := length_entryLine e h
  obtain ⟨hne, h255, -, -⟩ := validName_spec e.name h.name
  have hpos : 0 < e.name.bytes.length := List.length_pos_iff.mpr hne
  have hline : entryLine e ++ rest =
      lineNumbers e ++ (e.hash ++ (32 :: (e.name.bytes ++ (10 :: rest)))) := by
    simp [entryLine]
  have hhash : slice (entryLine e ++ rest) (lineNumbers e).length 64 = e.hash := by
    rw [hline, slice_append_of_eq (lineNumbers e) _ _ 0 _ (by omega)]
    exact slice_front _ _ _ hl.symm
  have hblank : slice (entryLine e ++ rest) ((lineNumbers e).length + 64) 1 = [32] := by
    rw [hline, slice_append_of_eq (lineNumbers e) _ _ 64 _ rfl, slice_append_of_eq e.hash _ _ 0 _ (by omega)]
    rfl
  have hname : slice (entryLine e ++ rest) ((lineNumbers e).length + 65) e.name.bytes.length = e.name.bytes := by
    rw [hline, slice_append_of_eq (lineNumbers e) _ _ 65 _ rfl, slice_append_of_eq e.hash _ _ 1 _ (by omega)]
    exact slice_front e.name.bytes (10 :: rest) _ rfl
  have hscan : scanEntry (entryLine e ++ rest) =
      some (e.mode, e.uid, e.gid, e.mtimeS, e.mtimeNs, (lineNumbers e).length) := by
    rw [hline]
    exact scanEntry_line e _ (noBlank_append _ _ hhne h.noBlank)
  have hlinelen : (entryLine e).length - 1 - ((lineNumbers e).length + 64 + 1) = e.name.bytes.length := by omega
  have hfits : ¬ (lineNumbers e).length + 64 + 2 > (entryLine e).length - 1 := by omega
  have hlong : ¬ (e.name.bytes.length = 0 ∨ e.name.bytes.length > CAS_TREE_NAME_MAX) := by
    unfold CAS_TREE_NAME_MAX
    omega
  unfold parseEntry
  simp only [hscan, CAS_HASH_HEX, if_neg hfits, hblank, ne_eq, not_true_eq_false, if_false, hlinelen,
    if_neg hlong, hhash, hname, ofBuf_of_noNul e.hash h.noNul, CStr.ofBuf_bytes]

/-! ## The text of a directory -/

theorem entryLine_front (e : Entry) (h : e.Written) :
    ∃ front : Bytes, entryLine e = front ++ [10] ∧ (10 : UInt8) ∉ front ∧
      front.length = (entryLine e).length - 1 := by
  refine ⟨lineNumbers e ++ (e.hash ++ (32 :: e.name.bytes)), by simp [entryLine], ?_, ?_⟩
  · obtain ⟨-, -, -, hnl⟩ := validName_spec e.name h.name
    intro hm
    rcases List.mem_append.mp hm with hm | hm
    · exact (lineNumbers_ne e 10 hm).2 rfl
    · rcases List.mem_append.mp hm with hm | hm
      · exact h.noNewline hm
      · rcases List.mem_cons.mp hm with hm | hm
        · exact absurd hm (by decide)
        · exact hnl hm
  · have := length_entryLine e h
    have hl : e.hash.length = 64 := h.length
    simp only [List.length_append, List.length_cons]
    omega

theorem entryLine_ne_nil (e : Entry) : entryLine e ≠ [] := by
  simp [entryLine]

theorem lineLen_line (e : Entry) (h : e.Written) (rest : Bytes) :
    lineLen (entryLine e ++ rest) = some ((entryLine e).length - 1) := by
  obtain ⟨front, hf, hnl, hlen⟩ := entryLine_front e h
  unfold lineLen
  rw [if_pos (by simp [hf]), ← hlen]
  rw [hf, List.append_assoc, List.singleton_append, takeWhile_ne_append front rest hnl]

theorem drop_line (e : Entry) (rest : Bytes) :
    (entryLine e ++ rest).drop ((entryLine e).length - 1 + 1) = rest := by
  have hpos : 0 < (entryLine e).length := List.length_pos_iff.mpr (entryLine_ne_nil e)
  rw [Nat.sub_add_cancel hpos, List.drop_left]

/-- Names in strictly ascending order. -/
def NamesAscending (dir : Dir) : Prop := dir.Pairwise fun a b => nameCmp a.name b.name = .lt

theorem outOfOrder_eq_false (dir : Dir) (e : Entry) (h : NamesAscending (dir ++ [e])) :
    outOfOrder dir e.name = false := by
  unfold outOfOrder
  cases hl : dir.getLast? with
  | none => rfl
  | some last =>
    have hm : last ∈ dir := List.mem_of_getLast? hl
    have := (List.pairwise_append.mp h).2.2 last hm e (by simp)
    simp [this]

theorem nameCmp_eq (a b : CStr) : nameCmp a b = .eq ↔ a = b := by
  unfold nameCmp
  rw [lexcmp_eq_eq]
  exact ⟨fun h => CStr.ext h, fun h => by rw [h]⟩

theorem nameCmp_lt_trans (a b c : CStr) (h1 : nameCmp a b = .lt) (h2 : nameCmp b c = .lt) :
    nameCmp a c = .lt := by
  unfold nameCmp at *
  rw [lexcmp_eq_lt] at *
  exact List.lt_trans h1 h2

theorem nameCmp_gt (a b : CStr) : nameCmp a b = .gt ↔ nameCmp b a = .lt := by
  unfold nameCmp
  rw [lexcmp_eq_gt, lexcmp_eq_lt]

theorem nameCmp_self (a : CStr) : nameCmp a a = .eq := (nameCmp_eq a a).mpr rfl

/-- A name that is not out of order keeps the names ascending. -/
theorem namesAscending_concat (dir : Dir) (e : Entry) (hs : NamesAscending dir)
    (h : outOfOrder dir e.name = false) : NamesAscending (dir ++ [e]) := by
  refine List.pairwise_append.mpr ⟨hs, List.pairwise_singleton _ _, ?_⟩
  intro x hx y hy
  obtain rfl := List.mem_singleton.mp hy
  obtain ⟨front, last, rfl⟩ : ∃ front last, dir = front ++ [last] :=
    ⟨_, _, (List.dropLast_append_getLast (List.ne_nil_of_mem hx)).symm⟩
  have hlast : nameCmp last.name y.name = .lt := by
    unfold outOfOrder at h
    simpa using h
  rcases List.mem_append.mp hx with hx | hx
  · exact nameCmp_lt_trans _ _ _ ((List.pairwise_append.mp hs).2.2 x hx last (by simp)) hlast
  · obtain rfl := List.mem_singleton.mp hx
    exact hlast

theorem casTreeDirAdd_spec (noMem : Bool) (dir out : Dir) (e : Entry)
    (h : casTreeDirAdd noMem dir e = .ok out) : validName e.name = true ∧ out = dir ++ [e] := by
  unfold casTreeDirAdd at h
  split at h
  · cases h
  · next hn =>
    split at h
    · cases h
    · exact ⟨by simpa using hn, (Except.ok.inj h).symm⟩

theorem casTreeDirAdd_ok (dir : Dir) (e : Entry) (h : validName e.name = true) :
    casTreeDirAdd false dir e = .ok (dir ++ [e]) := by
  unfold casTreeDirAdd
  simp [h]

/-- The loading loop reads the lines of an ascending directory back. -/
theorem textLoad_lines (es dir : Dir) (hp : ∀ e ∈ es, e.Written) (hs : NamesAscending (dir ++ es))
    (fuel : Nat) (hf : (es.flatMap entryLine).length ≤ fuel) :
    textLoad false fuel (es.flatMap entryLine) dir = .ok (dir ++ es) := by
  induction es generalizing dir fuel with
  | nil => cases fuel <;> simp [textLoad]
  | cons e es ih =>
    have he := hp e (by simp)
    have hpos : 0 < (entryLine e).length := List.length_pos_iff.mpr (entryLine_ne_nil e)
    rw [List.flatMap_cons] at hf ⊢
    rw [List.length_append] at hf
    obtain ⟨fuel, rfl⟩ : ∃ k, fuel = k + 1 := ⟨fuel - 1, by omega⟩
    have hcat : dir ++ e :: es = dir ++ [e] ++ es := by simp
    rw [hcat] at hs
    have hord := outOfOrder_eq_false dir e (List.pairwise_append.mp hs).1
    unfold textLoad
    rw [if_neg (by simp [entryLine_ne_nil]), lineLen_line e he]
    simp only [parseEntry_line e he, hord, Bool.false_eq_true, if_false, casTreeDirAdd_ok dir e he.name,
      drop_line]
    rw [ih (dir ++ [e]) (fun x hx => hp x (by simp [hx])) hs fuel (by omega), hcat]

/-- **The text of an ascending directory loads as that directory**, whatever its addresses are. -/
theorem treeTextLoad_written (dir : Dir) (hp : ∀ e ∈ dir, e.Written) (hs : NamesAscending dir) :
    treeTextLoad false (treeSerialize dir) = .ok dir := by
  unfold treeTextLoad treeSerialize
  simp only [ne_eq, not_true_eq_false, if_false]
  exact textLoad_lines dir [] hp hs _ (Nat.le_refl _)

theorem treeTextLoad_serialize (dir : Dir) (hp : ∀ e ∈ dir, e.Printable) (hs : NamesAscending dir) :
    treeTextLoad false (treeSerialize dir) = .ok dir :=
  treeTextLoad_written dir (fun e he => (hp e he).written) hs

theorem treeSerialize_inj (a b : Dir) (ha : ∀ e ∈ a, e.Printable) (hb : ∀ e ∈ b, e.Printable)
    (hsa : NamesAscending a) (hsb : NamesAscending b) (h : treeSerialize a = treeSerialize b) : a = b := by
  have h1 := treeTextLoad_serialize a ha hsa
  rw [h, treeTextLoad_serialize b hb hsb] at h1
  exact (Except.ok.inj h1).symm

theorem treeTextVerify_written (dir : Dir) (hp : ∀ e ∈ dir, e.Written) (hs : NamesAscending dir) :
    treeTextVerify false (treeSerialize dir) = .ok := by
  unfold treeTextVerify
  rw [treeTextLoad_written dir hp hs]
  simp

theorem treeTextVerify_serialize (dir : Dir) (hp : ∀ e ∈ dir, e.Printable) (hs : NamesAscending dir) :
    treeTextVerify false (treeSerialize dir) = .ok :=
  treeTextVerify_written dir (fun e he => (hp e he).written) hs

/-! ## Looking a name up -/

/-- The entry of a list with a name, as a lookup reports it. -/
def dirFind (dir : Dir) (name : CStr) : Except Status Entry :=
  match dir.find? fun e => e.name == name with
  | some e => .ok e
  | none => .error .enotfound

/-- The load loop only adds to a directory, and keeps its names ascending. -/
theorem textLoad_extends (noMem : Bool) (fuel : Nat) (p : Bytes) (dir out : Dir) (hs : NamesAscending dir)
    (h : textLoad noMem fuel p dir = .ok out) : dir <+: out ∧ NamesAscending out := by
  induction fuel generalizing p dir with
  | zero =>
    obtain rfl := Except.ok.inj h
    exact ⟨List.prefix_refl _, hs⟩
  | succ fuel ih =>
    unfold textLoad at h
    split at h
    · obtain rfl := Except.ok.inj h
      exact ⟨List.prefix_refl _, hs⟩
    · split at h
      · cases h
      · split at h
        · cases h
        · next e _ =>
          split at h
          · cases h
          · next hord =>
            split at h
            · cases h
            · next dir' hadd =>
              obtain ⟨-, rfl⟩ := casTreeDirAdd_spec noMem dir dir' e hadd
              obtain ⟨hpre, hs'⟩ := ih _ _ (namesAscending_concat dir e hs (by simpa using hord)) h
              exact ⟨(List.prefix_append _ _).trans hpre, hs'⟩

/-- What every line gives, every entry of a loaded directory has. -/
theorem textLoad_forall (P : Entry → Prop) (noMem : Bool) (fuel : Nat) (p : Bytes) (dir out : Dir)
    (hline : ∀ line linelen e, line <:+ p → lineLen line = some linelen → parseEntry line linelen = some e →
      validName e.name = true → P e)
    (hd : ∀ e ∈ dir, P e) (h : textLoad noMem fuel p dir = .ok out) : ∀ e ∈ out, P e := by
  induction fuel generalizing p dir with
  | zero =>
    obtain rfl := Except.ok.inj h
    exact hd
  | succ fuel ih =>
    unfold textLoad at h
    split at h
    · obtain rfl := Except.ok.inj h
      exact hd
    · split at h
      · cases h
      · next linelen hlen =>
        split at h
        · cases h
        · next e he =>
          split at h
          · cases h
          · split at h
            · cases h
            · next dir' hadd =>
              obtain ⟨hname, rfl⟩ := casTreeDirAdd_spec noMem dir dir' e hadd
              refine ih _ _ (fun line l e' hsuf => hline line l e' (hsuf.trans (List.drop_suffix _ _))) ?_ h
              intro x hx
              rcases List.mem_append.mp hx with hx | hx
              · exact hd x hx
              · rw [List.mem_singleton.mp hx]
                exact hline p linelen e (List.suffix_refl p) hlen he hname

/-- In an ascending directory the entry of a name is found whatever comes before and after it. -/
theorem dirFind_middle (front rest : Dir) (e : Entry) (hs : NamesAscending (front ++ e :: rest)) :
    dirFind (front ++ e :: rest) e.name = .ok e := by
  have hnone : front.find? (fun x => x.name == e.name) = none := by
    rw [List.find?_eq_none]
    intro x hx heq
    have hlt := (List.pairwise_append.mp hs).2.2 x hx e (by simp)
    rw [eq_of_beq heq, nameCmp_self] at hlt
    cases hlt
  unfold dirFind
  rw [List.find?_append, hnone, Option.none_or, List.find?_cons_of_pos (by simp)]

/-- A name between two neighbours of an ascending directory is not in it. -/
theorem dirFind_between (front rest : Dir) (e : Entry) (name : CStr) (hs : NamesAscending (e :: rest))
    (hfront : ∀ x ∈ front, nameCmp x.name name = .lt) (hgt : nameCmp e.name name = .gt) :
    dirFind (front ++ e :: rest) name = .error .enotfound := by
  have hlt := (nameCmp_gt _ _).mp hgt
  have hnone : (front ++ e :: rest).find? (fun x => x.name == name) = none := by
    rw [List.find?_eq_none]
    intro x hx heq
    have hname := eq_of_beq heq
    rcases List.mem_append.mp hx with hx | hx
    · have hcmp := hfront x hx
      rw [hname, nameCmp_self] at hcmp
      cases hcmp
    · rcases List.mem_cons.mp hx with rfl | hx
      · rw [hname, nameCmp_self] at hgt
        cases hgt
      · -- every later name is greater still
        have hcmp := nameCmp_lt_trans _ _ _ hlt ((List.pairwise_cons.mp hs).1 x hx)
        rw [hname, nameCmp_self] at hcmp
        cases hcmp
  unfold dirFind
  rw [hnone]

theorem dirFind_all_lt (dir : Dir) (name : CStr) (h : ∀ x ∈ dir, nameCmp x.name name = .lt) :
    dirFind dir name = .error .enotfound := by
  have hnone : dir.find? (fun x => x.name == name) = none := by
    rw [List.find?_eq_none]
    intro x hx heq
    have hcmp := h x hx
    rw [eq_of_beq heq, nameCmp_self] at hcmp
    cases hcmp
  unfold dirFind
  rw [hnone]

/-- The lookup loop goes with the load loop and stops at the name, or where it would be; `dir` is what
has been passed. -/
theorem textLookup_load (noMem : Bool) (name : CStr) (fuel : Nat) (p : Bytes) (dir out : Dir)
    (hs : NamesAscending dir) (hlt : ∀ x ∈ dir, nameCmp x.name name = .lt) (h : textLoad noMem fuel p dir = .ok out) :
    textLookup name fuel p (dir.getLast?.map Entry.name) = dirFind out name := by
  induction fuel generalizing p dir with
  | zero =>
    obtain rfl := Except.ok.inj h
    exact (dirFind_all_lt dir name hlt).symm
  | succ fuel ih =>
    unfold textLoad at h
    unfold textLookup
    split at h
    · next hp =>
      obtain rfl := Except.ok.inj h
      rw [if_pos hp]
      exact (dirFind_all_lt dir name hlt).symm
    · next hp =>
      rw [if_neg hp]
      split at h
      · cases h
      · next linelen hlen =>
        split at h
        · cases h
        · next e he =>
          split at h
          · cases h
          · next hord =>
            split at h
            · cases h
            · next dir' hadd =>
              obtain ⟨-, rfl⟩ := casTreeDirAdd_spec noMem dir dir' e hadd
              have hs' := namesAscending_concat dir e hs (by simpa using hord)
              obtain ⟨⟨rest, hout⟩, hasc⟩ := textLoad_extends noMem fuel _ _ out hs' h
              rw [List.append_assoc, List.singleton_append] at hout
              have hprev : ((dir.getLast?.map Entry.name).any fun last => decide (nameCmp last e.name ≠ .lt)) =
                false := by
                rw [Option.any_map]
                simpa [outOfOrder, Function.comp_def] using hord
              simp only [hprev, Bool.false_eq_true, if_false]
              cases hc : nameCmp e.name name with
              | eq =>
                obtain rfl := (nameCmp_eq _ _).mp hc
                subst hout
                exact (dirFind_middle dir rest e hasc).symm
              | gt =>
                subst hout
                exact (dirFind_between dir rest e name (List.pairwise_append.mp hasc).2.1 hlt hc).symm
              | lt =>
                have hnext := ih _ (dir ++ [e]) hs' (by
                  intro x hx
                  rcases List.mem_append.mp hx with hx | hx
                  · exact hlt x hx
                  · rw [List.mem_singleton.mp hx]
                    exact hc) h
                rw [List.getLast?_concat] at hnext
                exact hnext

/-- **A lookup in a text that loads finds what the loaded directory has.** -/
theorem treeTextLookup_load (noMem : Bool) (data : Bytes) (dir : Dir) (name : CStr)
    (h : treeTextLoad noMem data = .ok dir) : treeTextLookup data name = dirFind dir name := by
  unfold treeTextLoad at h
  unfold treeTextLookup
  split at h
  · cases h
  · next c p =>
    split at h
    · cases h
    · next hc =>
      rw [if_neg hc]
      exact textLookup_load noMem name _ p [] dir List.Pairwise.nil (by simp) h

/-- **A lookup in the text of an ascending directory finds what the list has.** -/
theorem treeTextLookup_serialize (dir : Dir) (name : CStr) (hp : ∀ e ∈ dir, e.Printable)
    (hs : NamesAscending dir) : treeTextLookup (treeSerialize dir) name = dirFind dir name :=
  treeTextLookup_load false _ dir name (treeTextLoad_serialize dir hp hs)

end Smolvfs
