import Smolvfs.Htree
import Smolvfs.Lib.Traced

/-!
# What the htree readers touch

`htree_lookup_entry` and `htree_parse_dir` again, over an object that may be anything:
each with the octets it loads, the octets it copies into an entry's name and the turns of
its loop (`Access`), every sum at the width the source computes it.  The loops stop at
their own conditions; the `fuel` makes recursions of them, and `none` is to run out of it.

`htree_within_bounds`: on every object under 4 GiB both return what `Smolvfs.Htree` has
for them, and touch nothing outside the object on the way.
-/

namespace Smolvfs

open Octets Probing Traces

inductive Access where
  /-- `len` octets of the object at `off` -/
  | read (off len : Nat)
  /-- `len` octets into `e->name` -/
  | name (len : Nat)
  /-- one turn of a loop over slots or records -/
  | turn
  deriving DecidableEq, Repr

/-- Inside an object of `n` octets, and inside the name of an entry. -/
def Access.Within (n : Nat) : Access → Prop
  | .read off len => off + len ≤ n
  | .name len => len ≤ CAS_TREE_NAME_MAX
  | .turn => True

def Access.isTurn (a : Access) : Bool := decide (a = .turn)

abbrev Accessing (α : Type) := Traced Access α

/-- A sum of `size_t`. -/
def addSize (a b : Nat) : Nat := (a + b) % 2 ^ 64

/-- A sum of `uint32_t`. -/
def addU32 (a b : Nat) : Nat := (a + b) % 2 ^ 32

/-! ## The readers -/

def load32 (data : Bytes) (off : Nat) : Accessing Nat := do
  emit (.read off 4)
  pure (loadLe32 data off)

/-- `htree_unpack_entry` -/
def unpackEntry (data : Bytes) (off : Nat) (key : Bytes) (keylen : Nat) : Accessing Entry := do
  emit (.name keylen)
  emit (.read off HTREE_ENTRY_DATA_LEN)
  pure (htreeUnpackEntry (slice data off HTREE_ENTRY_DATA_LEN) key)

/-- The size and magic checks. -/
def framedRun (data : Bytes) : Accessing Bool :=
  if data.length < HTREE_HEADER_LEN + HTREE_FOOTER_LEN then pure false
  else do
    emit (.read (data.length - HTREE_MAGIC_LEN) HTREE_MAGIC_LEN)
    pure (slice data (data.length - HTREE_MAGIC_LEN) HTREE_MAGIC_LEN == HTREE_MAGIC)

/-- The body of the loop of `htree_lookup_entry`; `none` is its `continue`. -/
def slotRun (data : Bytes) (cdbLen h : Nat) (key : Bytes) (spos : Nat) : Accessing (Option (Except Status Entry)) :=
  if addSize spos 8 > cdbLen then pure (some (.error .err))
  else do
    let sh ← load32 data spos
    let rpos ← load32 data (spos + 4)
    if rpos = 0 then pure (some (.error .enotfound))
    else if sh ≠ h then pure none
    else if addSize rpos 8 > cdbLen then pure (some (.error .err))
    else do
      let rkeylen ← load32 data rpos
      let rdatalen ← load32 data (rpos + 4)
      if rkeylen ≠ key.length % 2 ^ 32 then pure none
      else if rdatalen ≠ HTREE_ENTRY_DATA_LEN then pure (some (.error .err))
      else if addSize (addSize (addSize rpos 8) rkeylen) rdatalen > cdbLen then pure (some (.error .err))
      else do
        emit (.read (rpos + 8) key.length)
        if slice data (rpos + 8) key.length ≠ key then pure none
        else do
          let e ← unpackEntry data (rpos + 8 + rkeylen) key key.length
          pure (some (.ok e))

/-- `spos` of turn `i`. -/
def slotPos (tpos nslots slot i : Nat) : Nat := addSize tpos (addU32 slot i % nslots * 8 % 2 ^ 64)

/-- The loop of `htree_lookup_entry` from turn `i` on. -/
def lookupLoop (data : Bytes) (cdbLen h : Nat) (key : Bytes) (tpos nslots slot : Nat) :
    Nat → Nat → Accessing (Option (Except Status Entry))
  | 0, _ => pure none
  | fuel + 1, i =>
    if i < nslots then do
      emit .turn
      match ← slotRun data cdbLen h key (slotPos tpos nslots slot i) with
      | some r => pure (some r)
      | none => lookupLoop data cdbLen h key tpos nslots slot fuel (addU32 i 1)
    else pure (some (.error .enotfound))

/-- `nslots` of the table a name is looked up in. -/
def lookupSlots (data : Bytes) (name : CStr) : Nat := loadLe32 data (djbHash name.bytes % HTREE_NBUCKETS * 8 + 4)

/-- `htree_lookup_entry` -/
def htreeLookupRun (data : Bytes) (name : CStr) : Accessing (Option (Except Status Entry)) := do
  if (← framedRun data) = false then pure (some (.error .err))
  else if name.bytes.length > CAS_TREE_NAME_MAX then pure (some (.error .enotfound))
  else do
    let h := djbHash name.bytes
    let b := h % HTREE_NBUCKETS
    let tpos ← load32 data (b * 8)
    let nslots ← load32 data (b * 8 + 4)
    if nslots = 0 then pure (some (.error .enotfound))
    else lookupLoop data (data.length - HTREE_FOOTER_LEN) h name.bytes tpos nslots (h / 256 % nslots) (nslots + 1) 0

/-- The loop over the header that finds `rec_end`. -/
def recEndRun (data : Bytes) : List Nat → Nat → Accessing Nat
  | [], stop => pure stop
  | b :: bs, stop => do
    let tpos ← load32 data (b * 8)
    let tslots ← load32 data (b * 8 + 4)
    recEndRun data bs (if tslots > 0 ∧ tpos < stop then tpos else stop)

/-- The loop of `htree_parse_dir` from `pos` on; `noMem` says of each entry in turn whether memory
runs out at it. -/
def parseLoop (noMem : Nat → Bool) (data : Bytes) (stop : Nat) :
    Nat → Nat → Dir → Accessing (Option (Except Status Dir))
  | 0, _, _ => pure none
  | fuel + 1, pos, dir =>
    if addSize pos 8 ≤ stop then do
      emit .turn
      let keylen ← load32 data pos
      let datalen ← load32 data (pos + 4)
      let pos := addSize pos 8
      if datalen ≠ HTREE_ENTRY_DATA_LEN ∨ keylen = 0 ∨ keylen > CAS_TREE_NAME_MAX ∨
          addSize (addSize pos keylen) datalen > stop then pure (some (.error .err))
      else do
        emit (.read pos keylen)
        let e ← unpackEntry data (pos + keylen) (slice data pos keylen) keylen
        let pos := addSize pos (addU32 keylen datalen)
        if outOfOrder dir e.name then pure (some (.error .err))
        else
          match casTreeDirAdd (noMem dir.length) dir e with
          | .error _ => pure (some (.error .err))
          | .ok dir => parseLoop noMem data stop fuel pos dir
    else pure (some (.ok dir))

/-- `htree_parse_dir` -/
def htreeParseRun (noMem : Nat → Bool) (data : Bytes) : Accessing (Option (Except Status Dir)) := do
  if (← framedRun data) = false then pure (some (.error .err))
  else do
    let cdbLen := data.length - HTREE_FOOTER_LEN
    let stored ← load32 data cdbLen
    emit (.read 0 cdbLen)
    if stored ≠ adler32 (slice data 0 cdbLen) then pure (some (.error .err))
    else do
      let stop ← recEndRun data (List.range HTREE_NBUCKETS) (cdbLen % 2 ^ 32)
      parseLoop noMem data stop (data.length / 8 + 1) HTREE_HEADER_LEN []

/-! ## One step -/

theorem loadLe32_lt (data : Bytes) (pos : Nat) : loadLe32 data pos < 2 ^ 32 := by
  have hlt := loadLe_lt (slice data pos 4)
  have hle : 256 ^ (slice data pos 4).length ≤ 256 ^ 4 := Nat.pow_le_pow_right (by omega) (length_slice_le _ _ _)
  unfold loadLe32
  omega

theorem addSize_eq (a b : Nat) (h : a + b < 2 ^ 64) : addSize a b = a + b := Nat.mod_eq_of_lt h

/-- Inside the object and no turn of a loop. -/
def Access.Still (n : Nat) (a : Access) : Prop := a.Within n ∧ a.isTurn = false

@[simp] theorem still_read (n off len : Nat) : (Access.read off len).Still n ↔ off + len ≤ n := by
  simp [Access.Still, Access.Within, Access.isTurn]

@[simp] theorem still_name (n len : Nat) : (Access.name len).Still n ↔ len ≤ CAS_TREE_NAME_MAX := by
  simp [Access.Still, Access.Within, Access.isTurn]

section
variable {α : Type} (data : Bytes) (off : Nat)

theorem load32_val (f : Nat → Accessing α) : (load32 data off >>= f).val = (f (loadLe32 data off)).val := rfl

theorem load32_still (n : Nat) (f : Nat → Accessing α) :
    (load32 data off >>= f).All (Access.Still n) ↔ off + 4 ≤ n ∧ (f (loadLe32 data off)).All (Access.Still n) := by
  unfold load32
  simp

theorem load32_within (n : Nat) (f : Nat → Accessing α) :
    (load32 data off >>= f).All (Access.Within n) ↔ off + 4 ≤ n ∧ (f (loadLe32 data off)).All (Access.Within n) := by
  unfold load32
  simp [Access.Within]

theorem load32_turns (f : Nat → Accessing α) :
    (load32 data off >>= f).count Access.isTurn = (f (loadLe32 data off)).count Access.isTurn := by
  unfold load32
  simp [Access.isTurn]

end

@[simp] theorem unpackEntry_val (data : Bytes) (off : Nat) (key : Bytes) (keylen : Nat) :
    (unpackEntry data off key keylen).val = htreeUnpackEntry (slice data off HTREE_ENTRY_DATA_LEN) key := rfl

@[simp] theorem unpackEntry_still (data : Bytes) (off : Nat) (key : Bytes) (keylen n : Nat) :
    (unpackEntry data off key keylen).All (Access.Still n) ↔
      keylen ≤ CAS_TREE_NAME_MAX ∧ off + HTREE_ENTRY_DATA_LEN ≤ n := by
  unfold unpackEntry
  simp

theorem framedRun_val (data : Bytes) : (framedRun data).val = htreeFramed data := by
  unfold framedRun htreeFramed
  split
  · next h => rw [decide_eq_false (Nat.not_le.mpr h), Bool.false_and, val_pure]
  · next h => rw [decide_eq_true (Nat.not_lt.mp h), Bool.true_and, val_bind, val_pure]

theorem framedRun_still (data : Bytes) : (framedRun data).All (Access.Still data.length) := by
  unfold framedRun
  split
  · exact all_pure _ _
  · next h =>
    have h4 : HTREE_MAGIC_LEN ≤ data.length := by
      unfold HTREE_HEADER_LEN HTREE_NBUCKETS HTREE_FOOTER_LEN at h
      unfold HTREE_MAGIC_LEN
      omega
    rw [all_bind, all_emit, still_read]
    exact ⟨by omega, all_pure _ _⟩

/-- What a framed object has room for. -/
theorem framed_length (data : Bytes) (h : htreeFramed data = true) : 2056 ≤ data.length := by
  unfold htreeFramed at h
  exact of_decide_eq_true (Bool.and_eq_true_iff.mp h).1

section
variable (data : Bytes) (cdbLen h : Nat) (key : Bytes) (spos : Nat) (hkey : key.length ≤ CAS_TREE_NAME_MAX)
  (hspos : spos + 8 < 2 ^ 64)
include hkey hspos

theorem slotRun_val : (slotRun data cdbLen h key spos).val = slotStep data cdbLen h key spos := by
  have hlen : key.length % 2 ^ 32 = key.length := by
    apply Nat.mod_eq_of_lt
    unfold CAS_TREE_NAME_MAX at hkey
    omega
  have hrpos := loadLe32_lt data (spos + 4)
  unfold slotRun slotStep
  rw [addSize_eq _ _ hspos]
  by_cases hout : spos + 8 > cdbLen
  · rw [if_pos hout, if_pos hout, val_pure]
  rw [if_neg hout, if_neg hout]
  rw [load32_val, load32_val]
  unfold slotFree
  by_cases hfree : loadLe32 data (spos + 4) = 0
  · rw [if_pos hfree, if_pos (beq_iff_eq.mpr hfree), val_pure]
  rw [if_neg hfree, if_neg (fun hz => hfree (beq_iff_eq.mp hz))]
  unfold slotVerdict
  simp only []
  rw [addSize_eq _ _ (by omega), hlen]
  split
  · rfl
  · split
    · rfl
    · rw [load32_val, load32_val]
      split
      · rfl
      · next hk =>
        rw [not_not] at hk
        split
        · rfl
        · next hd =>
          rw [not_not] at hd
          have hsum : addSize (addSize (loadLe32 data (spos + 4) + 8) (loadLe32 data (loadLe32 data (spos + 4))))
              (loadLe32 data (loadLe32 data (spos + 4) + 4)) =
              loadLe32 data (spos + 4) + 8 + key.length + HTREE_ENTRY_DATA_LEN := by
            unfold CAS_TREE_NAME_MAX at hkey
            rw [hk, hd]
            unfold HTREE_ENTRY_DATA_LEN
            rw [addSize_eq _ key.length (by omega), addSize_eq _ _ (by omega)]
          rw [hsum, hk]
          split
          · rfl
          · rw [val_bind]
            split <;> rfl

theorem slotRun_still (hcdb : cdbLen ≤ data.length) :
    (slotRun data cdbLen h key spos).All (Access.Still data.length) := by
  have hrpos := loadLe32_lt data (spos + 4)
  have hlen : key.length % 2 ^ 32 = key.length := by
    apply Nat.mod_eq_of_lt
    unfold CAS_TREE_NAME_MAX at hkey
    omega
  unfold slotRun
  rw [addSize_eq _ _ hspos]
  split
  · exact all_pure _ _
  · next hin =>
    rw [load32_still, load32_still]
    refine ⟨by omega, by omega, ?_⟩
    split
    · exact all_pure _ _
    · split
      · exact all_pure _ _
      · rw [addSize_eq _ _ (by omega)]
        split
        · exact all_pure _ _
        · next hrec =>
          rw [load32_still, load32_still]
          refine ⟨by omega, by omega, ?_⟩
          split
          · exact all_pure _ _
          · next hk =>
            rw [not_not, hlen] at hk
            split
            · exact all_pure _ _
            · next hd =>
              rw [not_not] at hd
              rw [hk, hd]
              unfold CAS_TREE_NAME_MAX at hkey
              have hdata : HTREE_ENTRY_DATA_LEN = 56 := rfl
              rw [addSize_eq _ key.length (by omega), addSize_eq _ _ (by omega)]
              split
              · exact all_pure _ _
              · next hfit =>
                rw [all_bind, all_emit, still_read]
                refine ⟨by omega, ?_⟩
                split
                · exact all_pure _ _
                · rw [all_bind, unpackEntry_still]
                  exact ⟨⟨hkey, by omega⟩, all_pure _ _⟩

end

/-! ## The lookup -/

theorem slotPos_eq (tpos nslots slot i : Nat) (htpos : tpos < 2 ^ 32) (hn : nslots < 2 ^ 32) (hi : i < nslots) :
    slotPos tpos nslots slot i = tpos + (slot + i) % 2 ^ 32 % nslots * 8 ∧ slotPos tpos nslots slot i + 8 < 2 ^ 64 := by
  have hmod : addU32 slot i % nslots < nslots := Nat.mod_lt _ (by omega)
  have heq : slotPos tpos nslots slot i = tpos + addU32 slot i % nslots * 8 := by
    unfold slotPos
    rw [Nat.mod_eq_of_lt (show addU32 slot i % nslots * 8 < 2 ^ 64 by omega), addSize_eq _ _ (by omega)]
  refine ⟨heq, ?_⟩
  rw [heq]
  omega

theorem addU32_one (i n : Nat) (hi : i < n) (hn : n < 2 ^ 32) : addU32 i 1 = i + 1 := by
  apply Nat.mod_eq_of_lt
  omega

/-- A step that is still takes no turn. -/
theorem still_turns {α : Type} (n : Nat) (x : Accessing α) (h : x.All (Access.Still n)) :
    x.count Access.isTurn = 0 :=
  count_eq_zero _ _ (h.mono fun _ ha => ha.2)

section
variable (data : Bytes) (cdbLen h : Nat) (key : Bytes) (tpos nslots slot : Nat) (hkey : key.length ≤ CAS_TREE_NAME_MAX)
  (htpos : tpos < 2 ^ 32) (hn : nslots < 2 ^ 32)
include hkey htpos hn

theorem lookupLoop_val (fuel i : Nat) (hfuel : nslots - i < fuel) :
    (lookupLoop data cdbLen h key tpos nslots slot fuel i).val =
      some ((probe (fun i => slotStep data cdbLen h key (tpos + (slot + i) % 2 ^ 32 % nslots * 8)) (nslots - i) i).getD
        (.error .enotfound)) := by
  induction fuel generalizing i with
  | zero => omega
  | succ fuel ih =>
    unfold lookupLoop
    by_cases hi : i < nslots
    · obtain ⟨hpos, hfit⟩ := slotPos_eq tpos nslots slot i htpos hn hi
      rw [if_pos hi, val_bind, val_bind, slotRun_val data cdbLen h key _ hkey hfit, hpos,
        show nslots - i = (nslots - (i + 1)) + 1 by omega]
      unfold probe
      cases slotStep data cdbLen h key (tpos + (slot + i) % 2 ^ 32 % nslots * 8) with
      | some r => rfl
      | none =>
        simp only []
        rw [addU32_one i nslots hi hn]
        exact ih (i + 1) (by omega)
    · rw [if_neg hi, show nslots - i = 0 by omega]
      rfl

theorem lookupLoop_within (hcdb : cdbLen ≤ data.length) (fuel i : Nat) :
    (lookupLoop data cdbLen h key tpos nslots slot fuel i).All (Access.Within data.length) ∧
      (lookupLoop data cdbLen h key tpos nslots slot fuel i).count Access.isTurn ≤ nslots - i := by
  induction fuel generalizing i with
  | zero => exact ⟨all_pure _ _, Nat.zero_le _⟩
  | succ fuel ih =>
    unfold lookupLoop
    by_cases hi : i < nslots
    · obtain ⟨-, hfit⟩ := slotPos_eq tpos nslots slot i htpos hn hi
      have hstill := slotRun_still data cdbLen h key _ hkey hfit hcdb
      have hturns := still_turns _ _ hstill
      rw [if_pos hi, all_bind, all_bind, all_emit, count_bind, count_bind, hturns, count_emit]
      cases (slotRun data cdbLen h key (slotPos tpos nslots slot i)).val with
      | some r =>
        refine ⟨⟨trivial, hstill.mono fun _ ha => ha.1, all_pure _ _⟩, ?_⟩
        rw [count_pure]
        show 1 + (0 + 0) ≤ nslots - i
        omega
      | none =>
        simp only []
        rw [addU32_one i nslots hi hn]
        obtain ⟨hwithin, hcount⟩ := ih (i + 1)
        refine ⟨⟨trivial, hstill.mono fun _ ha => ha.1, hwithin⟩, ?_⟩
        show 1 + (0 + _) ≤ nslots - i
        omega
    · rw [if_neg hi]
      exact ⟨all_pure _ _, Nat.zero_le _⟩

end

theorem bucket_inside (data : Bytes) (hf : htreeFramed data = true) (b : Nat) (hb : b < HTREE_NBUCKETS) :
    b * 8 + 4 ≤ data.length ∧ b * 8 + 4 + 4 ≤ data.length := by
  have := framed_length data hf
  unfold HTREE_NBUCKETS at hb
  omega

section
variable (data : Bytes) (name : CStr)

theorem htreeLookupRun_val : (htreeLookupRun data name).val = some (htreeLookupEntry data name) := by
  unfold htreeLookupRun htreeLookupEntry
  rw [val_bind, framedRun_val]
  split
  · rfl
  · split
    · rfl
    · next hkey =>
      rw [load32_val, load32_val]
      simp only []
      split
      · rfl
      · exact lookupLoop_val data _ _ _ _ _ _ (Nat.not_lt.mp hkey) (loadLe32_lt _ _) (loadLe32_lt _ _) _ 0 (by omega)

theorem htreeLookupRun_within :
    (htreeLookupRun data name).All (Access.Within data.length) ∧
      (htreeLookupRun data name).count Access.isTurn ≤ lookupSlots data name := by
  have hframe := framedRun_still data
  unfold htreeLookupRun
  rw [all_bind, count_bind, still_turns _ _ hframe, framedRun_val, Nat.zero_add]
  refine (and_assoc.mpr ⟨hframe.mono fun _ ha => ha.1, ?_⟩ : _)
  split
  · exact ⟨all_pure _ _, Nat.zero_le _⟩
  · next hf =>
    rw [Bool.not_eq_false] at hf
    split
    · exact ⟨all_pure _ _, Nat.zero_le _⟩
    · next hkey =>
      obtain ⟨h1, h2⟩ := bucket_inside data hf (djbHash name.bytes % HTREE_NBUCKETS) (Nat.mod_lt _ (by decide))
      rw [load32_within, load32_within, load32_turns, load32_turns, and_assoc, and_assoc]
      refine ⟨h1, h2, ?_⟩
      split
      · exact ⟨all_pure _ _, Nat.zero_le _⟩
      · exact lookupLoop_within data _ _ _ _ _ _ (Nat.not_lt.mp hkey) (loadLe32_lt _ _) (loadLe32_lt _ _)
          (Nat.sub_le _ _) _ 0

/-- What a lookup finds has the name it was asked for. -/
theorem slotStep_name (cdbLen h spos : Nat) (key : Bytes) (e : Entry)
    (he : slotStep data cdbLen h key spos = some (.ok e)) : e.name = CStr.ofBuf key := by
  unfold slotStep at he
  split at he
  · cases he
  · simp only [] at he
    split at he
    · cases he
    · unfold slotVerdict at he
      repeat' split at he
      all_goals cases he
      rfl

theorem htreeLookupEntry_name (e : Entry) (h : htreeLookupEntry data name = .ok e) : e.name = name := by
  unfold htreeLookupEntry at h
  split at h
  · cases h
  · split at h
    · cases h
    · simp only [] at h
      split at h
      · cases h
      · revert h
        cases hp : probe _ _ _ with
        | none => exact fun h => nomatch h
        | some r =>
          rintro rfl
          obtain ⟨i, -, -, hi, -⟩ := (probe_eq_some _ _ _ _).mp hp
          rw [slotStep_name data _ _ _ _ _ hi, CStr.ofBuf_bytes]

end

/-! ## The listing -/

theorem recEndRun_val (data : Bytes) (bs : List Nat) (stop : Nat) :
    (recEndRun data bs stop).val = bs.foldl (fun stop b =>
      if loadLe32 data (b * 8 + 4) > 0 ∧ loadLe32 data (b * 8) < stop then loadLe32 data (b * 8) else stop) stop := by
  induction bs generalizing stop with
  | nil => rfl
  | cons b bs ih =>
    unfold recEndRun
    rw [load32_val, load32_val, List.foldl_cons, ih]

theorem recEndRun_le (data : Bytes) (bs : List Nat) (stop : Nat) : (recEndRun data bs stop).val ≤ stop := by
  induction bs generalizing stop with
  | nil => exact Nat.le_refl _
  | cons b bs ih =>
    unfold recEndRun
    rw [load32_val, load32_val]
    refine Nat.le_trans (ih _) ?_
    split <;> omega

theorem recEndRun_still (data : Bytes) (hf : htreeFramed data = true) (bs : List Nat)
    (hbs : ∀ b ∈ bs, b < HTREE_NBUCKETS)
    (stop : Nat) : (recEndRun data bs stop).All (Access.Still data.length) := by
  induction bs generalizing stop with
  | nil => exact all_pure _ _
  | cons b bs ih =>
    obtain ⟨h1, h2⟩ := bucket_inside data hf b (hbs b (List.mem_cons_self ..))
    unfold recEndRun
    rw [load32_still, load32_still]
    exact ⟨h1, h2, ih (fun c hc => hbs c (List.mem_cons_of_mem _ hc)) _⟩

section
variable (noMem : Nat → Bool) (data : Bytes) (stop : Nat) (hstop : stop ≤ data.length) (hlen : data.length < 2 ^ 32)
include hstop hlen

/-- Where the loop goes on after a record, when the record is inside. -/
theorem record_end (pos keylen datalen : Nat) (hpos : pos + 8 ≤ stop) (hkey : ¬ keylen > CAS_TREE_NAME_MAX)
    (hdata : datalen = HTREE_ENTRY_DATA_LEN) :
    addSize (addSize (pos + 8) keylen) datalen = pos + 8 + keylen + 56 ∧
      addSize (pos + 8) (addU32 keylen datalen) = pos + 8 + keylen + 56 := by
  unfold CAS_TREE_NAME_MAX at hkey
  unfold HTREE_ENTRY_DATA_LEN at hdata
  unfold addSize addU32
  omega

theorem parseLoop_within (fuel pos : Nat) (dir : Dir) (hpos : pos ≤ 2 ^ 32) :
    (parseLoop noMem data stop fuel pos dir).All (Access.Within data.length) ∧
      (parseLoop noMem data stop fuel pos dir).count Access.isTurn ≤ (stop - pos) / 8 := by
  induction fuel generalizing pos dir with
  | zero => exact ⟨all_pure _ _, Nat.zero_le _⟩
  | succ fuel ih =>
    have h8 : addSize pos 8 = pos + 8 := addSize_eq _ _ (by omega)
    unfold parseLoop
    rw [h8]
    by_cases hin : pos + 8 ≤ stop
    · rw [if_pos hin, all_bind, all_emit, count_bind, count_emit, load32_within, load32_within, load32_turns,
        load32_turns]
      simp only []
      have hturn : (if Access.turn.isTurn = true then 1 else 0) = 1 := rfl
      rw [hturn]
      split
      · exact ⟨⟨trivial, by omega, by omega, all_pure _ _⟩, by rw [count_pure]; omega⟩
      · next hok =>
        obtain ⟨hdata, -, hkey, hfit⟩ := by simpa only [not_or, not_not] using hok
        obtain ⟨hsum, hnext⟩ := record_end data stop hstop hlen pos _ _ hin hkey hdata
        rw [hsum] at hfit
        rw [hnext]
        have hstill : (unpackEntry data (pos + 8 + loadLe32 data pos) (slice data (pos + 8) (loadLe32 data pos))
            (loadLe32 data pos)).All (Access.Still data.length) := by
          rw [unpackEntry_still]
          have h56 : HTREE_ENTRY_DATA_LEN = 56 := rfl
          omega
        rw [all_bind, all_emit, all_bind, count_bind, count_emit, count_bind, still_turns _ _ hstill, unpackEntry_val]
        have hread : (if (Access.read (pos + 8) (loadLe32 data pos)).isTurn = true then 1 else 0) = 0 := rfl
        rw [hread, Nat.zero_add, Nat.zero_add, and_assoc, and_assoc, and_assoc, and_assoc, and_assoc]
        refine ⟨trivial, by omega, by omega, show _ + _ ≤ _ by omega, hstill.mono fun _ ha => ha.1, ?_⟩
        split
        · exact ⟨all_pure _ _, by rw [count_pure]; omega⟩
        · split
          · exact ⟨all_pure _ _, by rw [count_pure]; omega⟩
          · next dir' _ =>
            obtain ⟨hwithin, hcount⟩ := ih (pos + 8 + loadLe32 data pos + 56) dir' (by omega)
            exact ⟨hwithin, by omega⟩
    · rw [if_neg hin]
      exact ⟨all_pure _ _, Nat.zero_le _⟩

/-- Every turn takes more than eight octets. -/
theorem parseLoop_returns (fuel pos : Nat) (dir : Dir) (hpos : pos ≤ 2 ^ 32) (hfuel : stop - pos < 8 * fuel) :
    ∃ r, (parseLoop noMem data stop fuel pos dir).val = some r := by
  induction fuel generalizing pos dir with
  | zero => omega
  | succ fuel ih =>
    have h8 : addSize pos 8 = pos + 8 := addSize_eq _ _ (by omega)
    unfold parseLoop
    rw [h8]
    by_cases hin : pos + 8 ≤ stop
    · rw [if_pos hin, val_bind, load32_val, load32_val]
      simp only []
      split
      · exact ⟨_, rfl⟩
      · next hok =>
        obtain ⟨hdata, -, hkey, hfit⟩ := by simpa only [not_or, not_not] using hok
        obtain ⟨hsum, hnext⟩ := record_end data stop hstop hlen pos _ _ hin hkey hdata
        rw [hsum] at hfit
        rw [val_bind, val_bind, hnext]
        split
        · exact ⟨_, rfl⟩
        · split
          · exact ⟨_, rfl⟩
          · exact ih _ _ (by omega) (by omega)
    · rw [if_neg hin]
      exact ⟨_, rfl⟩

/-- The loop over the object is the loop over the octets that are left of the records. -/
theorem parseLoop_val (b : Bool) (fuel n pos : Nat) (dir : Dir) (hpos : pos ≤ 2 ^ 32) (hfuel : stop - pos < 8 * fuel)
    (hn : stop - pos ≤ n) : (parseLoop (fun _ => b) data stop fuel pos dir).val =
      some (parseRecords b n (slice data pos (stop - pos)) dir) := by
  induction fuel generalizing n pos dir with
  | zero => omega
  | succ fuel ih =>
    have h8 : addSize pos 8 = pos + 8 := addSize_eq _ _ (by omega)
    have hregion : pos ≤ stop → (slice data pos (stop - pos)).length = stop - pos := by
      intro hle
      apply length_slice
      omega
    unfold parseLoop
    rw [h8]
    by_cases hin : pos + 8 ≤ stop
    · obtain ⟨n, rfl⟩ : ∃ m, n = m + 1 := ⟨n - 1, by omega⟩
      have hkeylen := loadLe32_lt data pos
      have hdatalen := loadLe32_lt data (pos + 4)
      have hrk : loadLe32 (slice data pos (stop - pos)) 0 = loadLe32 data pos :=
        (loadLe32_slice data _ pos (stop - pos) 0 rfl (by omega)).symm
      have hrd : loadLe32 (slice data pos (stop - pos)) 4 = loadLe32 data (pos + 4) :=
        (loadLe32_slice data _ pos (stop - pos) 4 rfl (by omega)).symm
      rw [if_pos hin, val_bind, load32_val, load32_val]
      unfold parseRecords
      rw [hregion (by omega), if_neg (show ¬ stop - pos < 8 by omega)]
      simp only [hrk, hrd]
      have hsum : addSize (addSize (pos + 8) (loadLe32 data pos)) (loadLe32 data (pos + 4)) =
          pos + 8 + loadLe32 data pos + loadLe32 data (pos + 4) := by
        rw [addSize_eq (pos + 8) _ (by omega), addSize_eq _ _ (by omega)]
      rw [hsum]
      have hfit : pos + 8 + loadLe32 data pos + loadLe32 data (pos + 4) > stop ↔
          8 + loadLe32 data pos + loadLe32 data (pos + 4) > stop - pos := by omega
      simp only [hfit]
      split
      · rfl
      · next hok =>
        obtain ⟨hdata, -, hkey, hle⟩ := by simpa only [not_or, not_not] using hok
        obtain ⟨-, hnext⟩ := record_end data stop hstop hlen pos _ _ hin hkey hdata
        have h56 : HTREE_ENTRY_DATA_LEN = 56 := rfl
        rw [hdata, h56] at hle
        have hkeyAt : slice (slice data pos (stop - pos)) 8 (loadLe32 data pos) =
          slice data (pos + 8) (loadLe32 data pos) :=
          slice_slice _ _ _ _ _ (by omega)
        have hdataAt : slice (slice data pos (stop - pos)) (8 + loadLe32 data pos) HTREE_ENTRY_DATA_LEN =
            slice data (pos + 8 + loadLe32 data pos) HTREE_ENTRY_DATA_LEN := by
          rw [slice_slice _ _ _ _ _ (by omega), Nat.add_assoc]
        have hrest : (slice data pos (stop - pos)).drop (8 + loadLe32 data pos + loadLe32 data (pos + 4)) =
            slice data (pos + 8 + loadLe32 data pos + 56) (stop - (pos + 8 + loadLe32 data pos + 56)) := by
          unfold slice
          rw [List.drop_take, List.drop_drop, hdata, h56,
            show stop - pos - (8 + loadLe32 data pos + 56) = stop - (pos + 8 + loadLe32 data pos + 56) by omega,
            show pos + (8 + loadLe32 data pos + 56) = pos + 8 + loadLe32 data pos + 56 by omega]
        rw [val_bind, val_bind, unpackEntry_val, hkeyAt, hdataAt, hrest, hnext]
        split
        · rfl
        · cases casTreeDirAdd b dir (htreeUnpackEntry (slice data (pos + 8 + loadLe32 data pos) HTREE_ENTRY_DATA_LEN)
              (slice data (pos + 8) (loadLe32 data pos))) with
          | error _ => rfl
          | ok dir' => exact ih n _ dir' (by omega) (by omega) (by omega)
    · rw [if_neg hin]
      cases n with
      | zero => rfl
      | succ n =>
        unfold parseRecords
        have hshort := length_slice_le data pos (stop - pos)
        rw [if_pos (by omega)]
        rfl

end

theorem recEndRun_recEnd (data : Bytes) :
    (recEndRun data (List.range HTREE_NBUCKETS) ((data.length - HTREE_FOOTER_LEN) % 2 ^ 32)).val = recEnd data :=
  recEndRun_val _ _ _

section
variable (data : Bytes) (hlen : data.length < 2 ^ 32)
include hlen

theorem recEnd_le_length : recEnd data ≤ data.length := by
  have hle := recEndRun_le data (List.range HTREE_NBUCKETS) ((data.length - HTREE_FOOTER_LEN) % 2 ^ 32)
  rw [recEndRun_recEnd, Nat.mod_eq_of_lt (by omega)] at hle
  omega

theorem htreeParseRun_val (b : Bool) : (htreeParseRun (fun _ => b) data).val = some (htreeParseDir b data) := by
  have hstop := recEnd_le_length data hlen
  unfold htreeParseRun htreeParseDir
  rw [val_bind, framedRun_val]
  split
  · rfl
  · rw [load32_val, val_bind]
    split
    · rfl
    · rw [val_bind, recEndRun_recEnd]
      have hregion : recEnd data - HTREE_HEADER_LEN ≤
          (slice data HTREE_HEADER_LEN (recEnd data - HTREE_HEADER_LEN)).length := by
        by_cases hle : HTREE_HEADER_LEN ≤ recEnd data
        · rw [length_slice _ _ _ (by omega)]
        · omega
      exact parseLoop_val data _ hstop hlen b _ _ HTREE_HEADER_LEN [] (by decide) (by omega) hregion

theorem htreeParseRun_within (noMem : Nat → Bool) :
    (htreeParseRun noMem data).All (Access.Within data.length) ∧
      (htreeParseRun noMem data).count Access.isTurn ≤ data.length / 8 := by
  have hstop := recEnd_le_length data hlen
  have hframe := framedRun_still data
  unfold htreeParseRun
  rw [all_bind, count_bind, still_turns _ _ hframe, framedRun_val, Nat.zero_add]
  refine (and_assoc.mpr ⟨hframe.mono fun _ ha => ha.1, ?_⟩ : _)
  split
  · exact ⟨all_pure _ _, Nat.zero_le _⟩
  · next hf =>
    rw [Bool.not_eq_false] at hf
    have hroom := framed_length data hf
    have h8 : HTREE_FOOTER_LEN = 8 := rfl
    have hread : (if (Access.read 0 (data.length - HTREE_FOOTER_LEN)).isTurn = true then 1 else 0) = 0 := rfl
    rw [load32_within, load32_turns, all_bind, all_emit, count_bind, count_emit, hread, Nat.zero_add, and_assoc,
      and_assoc]
    refine ⟨by omega, show _ + _ ≤ _ by omega, ?_⟩
    split
    · exact ⟨all_pure _ _, Nat.zero_le _⟩
    · have hend := recEndRun_still data hf (List.range HTREE_NBUCKETS) (fun b hb => List.mem_range.mp hb)
        ((data.length - HTREE_FOOTER_LEN) % 2 ^ 32)
      rw [all_bind, count_bind, still_turns _ _ hend, recEndRun_recEnd, Nat.zero_add]
      obtain ⟨hwithin, hcount⟩ := parseLoop_within noMem data (recEnd data) hstop hlen (data.length / 8 + 1)
        HTREE_HEADER_LEN [] (by decide)
      exact ⟨⟨hend.mono fun _ ha => ha.1, hwithin⟩, by omega⟩

/-- The listing comes to an end also when memory runs out on the way. -/
theorem htreeParseRun_returns (noMem : Nat → Bool) : ∃ r, (htreeParseRun noMem data).val = some r := by
  have hstop := recEnd_le_length data hlen
  unfold htreeParseRun
  rw [val_bind]
  split
  · exact ⟨_, rfl⟩
  · rw [load32_val, val_bind]
    split
    · exact ⟨_, rfl⟩
    · rw [val_bind, recEndRun_recEnd]
      exact parseLoop_returns noMem data _ hstop hlen _ HTREE_HEADER_LEN [] (by decide) (by omega)

end

/-- **Malformed htrees are handled within bounds.**  On any object under 4 GiB a lookup and a listing return;
what they load is inside the object, what they copy into a name fits it, a lookup takes at most `nslots` turns
and a listing one for each eight octets.  What a lookup finds has the name it was asked for. -/
theorem htree_within_bounds (data : Bytes) (hlen : data.length < 2 ^ 32) :
    (∀ name, (htreeLookupRun data name).val = some (htreeLookupEntry data name) ∧
      (htreeLookupRun data name).All (Access.Within data.length) ∧
      (htreeLookupRun data name).count Access.isTurn ≤ lookupSlots data name ∧
      ∀ e, (htreeLookupRun data name).val = some (.ok e) → e.name = name) ∧
    ∀ noMem, (∃ r, (htreeParseRun noMem data).val = some r) ∧
      (htreeParseRun noMem data).All (Access.Within data.length) ∧
      (htreeParseRun noMem data).count Access.isTurn ≤ data.length / 8 ∧
      ∀ b, (htreeParseRun (fun _ => b) data).val = some (htreeParseDir b data) := by
  constructor
  · intro name
    obtain ⟨hwithin, hturns⟩ := htreeLookupRun_within data name
    refine ⟨htreeLookupRun_val data name, hwithin, hturns, ?_⟩
    intro e he
    rw [htreeLookupRun_val] at he
    exact htreeLookupEntry_name data name e (Option.some.inj he)
  · intro noMem
    obtain ⟨hwithin, hturns⟩ := htreeParseRun_within data hlen noMem
    exact ⟨htreeParseRun_returns data hlen noMem, hwithin, hturns, htreeParseRun_val data hlen⟩

/-- A footer's magic after numbers of all ones: tables of `2 ^ 32 - 1` slots at `2 ^ 32 - 1`. -/
def wildHtree : Bytes := List.replicate 2052 255 ++ HTREE_MAGIC

theorem htree_within_bounds_wild : wildHtree.length = 2056 ∧ htreeFramed wildHtree = true ∧
    (∀ name, (htreeLookupRun wildHtree name).All (Access.Within 2056)) ∧
    ∀ noMem, (htreeParseRun noMem wildHtree).All (Access.Within 2056) := by
  have hlen : wildHtree.length = 2056 := by
    unfold wildHtree
    rw [List.length_append, List.length_replicate]
    rfl
  obtain ⟨hlookup, hparse⟩ := htree_within_bounds wildHtree (by omega)
  rw [hlen] at hlookup hparse
  exact ⟨hlen, by decide +kernel, fun name => (hlookup name).2.1, fun noMem => (hparse noMem).2.1⟩

end Smolvfs
