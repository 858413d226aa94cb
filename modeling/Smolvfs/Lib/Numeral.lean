import Smolvfs.Lib.Octets
import Mathlib.Data.Nat.Digits.Lemmas
import Mathlib.Data.List.TakeWhile

/-!
# Numbers as text

Printing (`printNat`, `printInt`, zero padding) and scanning (`scanNat`,
`scanInt`) of numbers in a base of at most ten, as C's `printf` and `scanf`
conversions do them: a scan skips blanks, takes a sign and the longest run of
digits, and leaves the rest.  A scan of what was printed gives the number back
(`scanNat_printNat`, `scanNat_padded`, `scanInt_printInt`).
-/

namespace Numeral

open Octets

/-! ## Printing -/

def digitOctet (d : Nat) : UInt8 := UInt8.ofNat (48 + d)

def printNat (base n : Nat) : Bytes :=
  if n = 0 then [48] else (Nat.digits base n).reverse.map digitOctet

def printInt (n : Int) : Bytes :=
  if n < 0 then 45 :: printNat 10 n.natAbs else printNat 10 n.natAbs

def padZero (width : Nat) (s : Bytes) : Bytes := List.replicate (width - s.length) 48 ++ s

/-! ## Scanning -/

def isDigit (base : Nat) (c : UInt8) : Bool := decide (48 ≤ c.toNat) && decide (c.toNat < 48 + base)

/-- C's `isspace` in the C locale. -/
def isSpace (c : UInt8) : Bool := c == 32 || (decide (9 ≤ c.toNat) && decide (c.toNat ≤ 13))

def skipSpace (s : Bytes) : Bytes := s.dropWhile isSpace

/-- The longest run of digits at the front, read onto `acc`, and the rest. -/
def scanNat (base : Nat) : Nat → Bytes → Nat × Bytes
  | acc, [] => (acc, [])
  | acc, c :: cs =>
    if isDigit base c then scanNat base (acc * base + (c.toNat - 48)) cs else (acc, c :: cs)

/-- Digits are wanted at the front of `s`; `none` is a matching failure. -/
def scanDigits (base : Nat) (neg : Bool) (s : Bytes) : Option (Int × Bytes) :=
  match s with
  | [] => none
  | c :: cs =>
    if isDigit base c then
      let r := scanNat base 0 (c :: cs)
      some (if neg then -(r.1 : Int) else r.1, r.2)
    else none

/-- Blanks, an optional sign, digits. -/
def scanInt (base : Nat) (s : Bytes) : Option (Int × Bytes) :=
  match skipSpace s with
  | [] => none
  | c :: cs =>
    if c = 45 then scanDigits base true cs
    else if c = 43 then scanDigits base false cs
    else scanDigits base false (c :: cs)

/-! ## Digits -/

/-- `s` does not go on with a digit of the base. -/
def StopsDigits (base : Nat) (s : Bytes) : Prop := ∀ c cs, s = c :: cs → isDigit base c = false

theorem stopsDigits_space (base : Nat) (s : Bytes) : StopsDigits base (32 :: s) := by
  intro c cs h
  obtain ⟨rfl, -⟩ := List.cons.inj h
  simp [isDigit]

theorem stopsDigits_nil (base : Nat) : StopsDigits base [] := by
  intro c cs h
  cases h

theorem digitOctet_toNat (d : Nat) (h : d < 10) : (digitOctet d).toNat = 48 + d := by
  unfold digitOctet
  rw [UInt8.toNat_ofNat']
  omega

theorem isDigit_digitOctet (base d : Nat) (hb : base ≤ 10) (h : d < base) :
    isDigit base (digitOctet d) = true := by
  unfold isDigit
  rw [digitOctet_toNat d (by omega)]
  simp [h]

/-- A printed digit is no blank, sign or NUL. -/
theorem isDigit_ne (base : Nat) (c : UInt8) (h : isDigit base c = true) :
    isSpace c = false ∧ c ≠ 45 ∧ c ≠ 43 ∧ c ≠ 0 ∧ c ≠ 10 ∧ c ≠ 32 := by
  unfold isDigit at h
  simp only [Bool.and_eq_true, decide_eq_true_eq] at h
  have hne : ∀ v : UInt8, v.toNat < 48 → c ≠ v := by
    rintro v hv rfl
    omega
  refine ⟨?_, hne 45 (by decide), hne 43 (by decide), hne 0 (by decide), hne 10 (by decide),
    hne 32 (by decide)⟩
  unfold isSpace
  have h32 := hne 32 (by decide)
  simp only [Bool.or_eq_false_iff, beq_eq_false_iff_ne, ne_eq, h32, not_false_eq_true, true_and,
    Bool.and_eq_false_iff, decide_eq_false_iff_not]
  omega

theorem scanNat_digits (base : Nat) (hb : base ≤ 10) (ds : List Nat) (hd : ∀ d ∈ ds, d < base)
    (rest : Bytes) (hr : StopsDigits base rest) (acc : Nat) :
    scanNat base acc (ds.map digitOctet ++ rest) = (ds.foldl (fun a d => a * base + d) acc, rest) := by
  induction ds generalizing acc with
  | nil =>
    cases rest with
    | nil => rfl
    | cons c cs => simp [scanNat, hr c cs rfl]
  | cons d ds ih =>
    have hdb := hd d (by simp)
    rw [List.map_cons, List.cons_append, scanNat, if_pos (isDigit_digitOctet base d hb hdb),
      digitOctet_toNat d (by omega), Nat.add_sub_cancel_left, List.foldl_cons]
    exact ih (fun x hx => hd x (by simp [hx])) _

theorem foldl_reverse_digits (base n : Nat) :
    (Nat.digits base n).reverse.foldl (fun a d => a * base + d) 0 = n := by
  rw [List.foldl_reverse]
  have h := Nat.ofDigits_digits base n
  rw [Nat.ofDigits_eq_foldr] at h
  simp only [Nat.cast_id] at h
  calc _ = (Nat.digits base n).foldr (fun x y => x + base * y) 0 := by
        congr 1
        funext x y
        ring
    _ = n := h

/-- The digits `printNat` writes, most significant first. -/
theorem printNat_eq_map (base n : Nat) (hb : 2 ≤ base) :
    ∃ ds : List Nat, printNat base n = ds.map digitOctet ∧ ds ≠ [] ∧ (∀ d ∈ ds, d < base) ∧
      ds.foldl (fun a d => a * base + d) 0 = n := by
  unfold printNat
  split
  · next h0 => exact ⟨[0], by rfl, by simp, by simp; omega, by simp [h0]⟩
  · next h0 =>
    refine ⟨(Nat.digits base n).reverse, rfl, ?_, ?_, foldl_reverse_digits base n⟩
    · simp [Nat.digits_eq_nil_iff_eq_zero, h0]
    · intro d hd
      exact Nat.digits_lt_base (by omega) (List.mem_reverse.mp hd)

theorem printNat_isDigit (base n : Nat) (hb : 2 ≤ base) (hb' : base ≤ 10) :
    ∀ c ∈ printNat base n, isDigit base c = true := by
  obtain ⟨ds, hp, -, hd, -⟩ := printNat_eq_map base n hb
  rw [hp]
  intro c hc
  obtain ⟨d, hdm, rfl⟩ := List.mem_map.mp hc
  exact isDigit_digitOctet base d hb' (hd d hdm)

theorem printNat_ne_nil (base n : Nat) (hb : 2 ≤ base) : printNat base n ≠ [] := by
  obtain ⟨ds, hp, hne, -, -⟩ := printNat_eq_map base n hb
  rw [hp]
  simpa using hne

theorem length_printNat_le (base n k : Nat) (hb : 2 ≤ base) (hk : 0 < k) (h : n < base ^ k) :
    (printNat base n).length ≤ k := by
  unfold printNat
  split
  · exact hk
  · rw [List.length_map, List.length_reverse]
    exact (Nat.digits_length_le_iff (by omega) n).mpr h

theorem length_printInt_le (n : Int) (k : Nat) (hk : 0 < k) (h : n.natAbs < 10 ^ k) : (printInt n).length ≤ k + 1 := by
  have hlen := length_printNat_le 10 n.natAbs k (by omega) hk h
  unfold printInt
  split
  · exact Nat.succ_le_succ hlen
  · omega

/-! ## Round trips -/

theorem scanNat_printNat (base n : Nat) (hb : 2 ≤ base) (hb' : base ≤ 10) (rest : Bytes)
    (hr : StopsDigits base rest) : scanNat base 0 (printNat base n ++ rest) = (n, rest) := by
  obtain ⟨ds, hp, -, hd, hv⟩ := printNat_eq_map base n hb
  rw [hp, scanNat_digits base hb' ds hd rest hr 0, hv]

theorem scanNat_zeros (base k : Nat) (hb : 0 < base) (s : Bytes) :
    scanNat base 0 (List.replicate k 48 ++ s) = scanNat base 0 s := by
  induction k with
  | zero => rfl
  | succ k ih =>
    rw [List.replicate_succ, List.cons_append, scanNat, if_pos (by simp [isDigit, hb])]
    simpa using ih

theorem scanNat_padded (base width n : Nat) (hb : 2 ≤ base) (hb' : base ≤ 10) (rest : Bytes)
    (hr : StopsDigits base rest) :
    scanNat base 0 (padZero width (printNat base n) ++ rest) = (n, rest) := by
  unfold padZero
  rw [List.append_assoc, scanNat_zeros base _ (by omega), scanNat_printNat base n hb hb' rest hr]

/-- A run of digits at the front is scanned whole, as a positive number. -/
theorem scanInt_of_digits (base : Nat) (s rest : Bytes) (hs : s ≠ [])
    (hd : ∀ c ∈ s, isDigit base c = true) (v : Nat) (hv : scanNat base 0 (s ++ rest) = (v, rest)) :
    scanInt base (s ++ rest) = some ((v : Int), rest) := by
  cases s with
  | nil => exact absurd rfl hs
  | cons c cs =>
    have hc := hd c (by simp)
    obtain ⟨h1, h2, h3, -⟩ := isDigit_ne base c hc
    have hsk : skipSpace (c :: cs ++ rest) = c :: cs ++ rest := by simp [skipSpace, h1]
    rw [List.cons_append] at hv hsk ⊢
    unfold scanInt
    rw [hsk]
    simp only [h2, h3, if_false, scanDigits, hc, if_true, hv, Bool.false_eq_true]

theorem scanInt_printNat (base n : Nat) (hb : 2 ≤ base) (hb' : base ≤ 10) (rest : Bytes)
    (hr : StopsDigits base rest) : scanInt base (printNat base n ++ rest) = some ((n : Int), rest) :=
  scanInt_of_digits base _ rest (printNat_ne_nil base n hb) (printNat_isDigit base n hb hb') n
    (scanNat_printNat base n hb hb' rest hr)

theorem scanInt_padded (base width n : Nat) (hb : 2 ≤ base) (hb' : base ≤ 10) (rest : Bytes)
    (hr : StopsDigits base rest) :
    scanInt base (padZero width (printNat base n) ++ rest) = some ((n : Int), rest) := by
  refine scanInt_of_digits base _ rest ?_ ?_ n (scanNat_padded base width n hb hb' rest hr)
  · simp [padZero, printNat_ne_nil base n hb]
  · intro c hc
    rcases List.mem_append.mp hc with h | h
    · obtain rfl := List.eq_of_mem_replicate h
      simp only [isDigit, Bool.and_eq_true, decide_eq_true_eq]
      exact ⟨by decide, by simp; omega⟩
    · exact printNat_isDigit base n hb hb' c h

theorem scanInt_printInt (n : Int) (rest : Bytes) (hr : StopsDigits 10 rest) :
    scanInt 10 (printInt n ++ rest) = some (n, rest) := by
  unfold printInt
  split
  · next hneg =>
    have hd := printNat_isDigit 10 n.natAbs (by omega) (by omega)
    have hv := scanNat_printNat 10 n.natAbs (by omega) (by omega) rest hr
    cases hp : printNat 10 n.natAbs with
    | nil => exact absurd hp (printNat_ne_nil 10 n.natAbs (by omega))
    | cons c cs =>
      rw [hp] at hd hv
      simp only [List.cons_append] at hv ⊢
      have hc := hd c (by simp)
      have hsk : skipSpace (45 :: c :: (cs ++ rest)) = 45 :: c :: (cs ++ rest) := by
        simp [skipSpace, isSpace]
      unfold scanInt
      rw [hsk]
      simp only [if_true, scanDigits, hc, hv]
      congr 2
      omega
  · next hpos =>
    rw [scanInt_printNat 10 n.natAbs (by omega) (by omega) rest hr]
    congr 2
    omega

/-- A blank before a number is skipped. -/
theorem scanInt_space (base : Nat) (s : Bytes) : scanInt base (32 :: s) = scanInt base s := by
  unfold scanInt
  have hsk : skipSpace (32 :: s) = skipSpace s := by simp [skipSpace, isSpace]
  rw [hsk]

/-! ## What a scan leaves -/

theorem scanNat_suffix (base acc : Nat) (s : Bytes) : (scanNat base acc s).2 <:+ s := by
  induction s generalizing acc with
  | nil => exact List.suffix_refl _
  | cons c cs ih =>
    unfold scanNat
    split
    · exact (ih _).trans (List.suffix_cons c cs)
    · exact List.suffix_refl _

theorem scanDigits_suffix (base : Nat) (neg : Bool) (s rest : Bytes) (v : Int)
    (h : scanDigits base neg s = some (v, rest)) : rest <:+ s := by
  unfold scanDigits at h
  split at h
  · cases h
  · next c cs =>
    split at h
    · obtain ⟨-, rfl⟩ := Prod.mk.inj (Option.some.inj h)
      exact scanNat_suffix base 0 (c :: cs)
    · cases h

/-- A scan leaves an end of what it was given. -/
theorem scanInt_suffix (base : Nat) (s rest : Bytes) (v : Int) (h : scanInt base s = some (v, rest)) : rest <:+ s := by
  have hskip : skipSpace s <:+ s := List.dropWhile_suffix _
  unfold scanInt at h
  split at h
  · cases h
  · next c cs heq =>
    rw [heq] at hskip
    split at h
    · exact (scanDigits_suffix base true cs rest v h).trans ((List.suffix_cons c cs).trans hskip)
    · split at h
      · exact (scanDigits_suffix base false cs rest v h).trans ((List.suffix_cons c cs).trans hskip)
      · exact (scanDigits_suffix base false _ rest v h).trans hskip

/-- A run of digits ends before a blank. -/
theorem scanNat_stops (base acc : Nat) (w r : Bytes) : ∃ u, (scanNat base acc (w ++ 32 :: r)).2 = u ++ 32 :: r := by
  induction w generalizing acc with
  | nil =>
    refine ⟨[], ?_⟩
    rw [List.nil_append, scanNat, if_neg (by simp [isDigit])]
  | cons c cs ih =>
    rw [List.cons_append, scanNat]
    split
    · exact ih _
    · exact ⟨c :: cs, rfl⟩

theorem scanDigits_stops (base : Nat) (neg : Bool) (w r rest : Bytes) (v : Int)
    (h : scanDigits base neg (w ++ 32 :: r) = some (v, rest)) : ∃ u, rest = u ++ 32 :: r := by
  unfold scanDigits at h
  split at h
  · cases h
  · next c cs heq =>
    split at h
    · obtain ⟨-, rfl⟩ := Prod.mk.inj (Option.some.inj h)
      rw [← heq]
      exact scanNat_stops base 0 w r
    · cases h

/-- Skipping blanks stops within octets that are not all blank. -/
theorem skipSpace_append (w r : Bytes) (hw : ∃ c ∈ w, isSpace c = false) :
    skipSpace (w ++ r) = skipSpace w ++ r ∧ skipSpace w ≠ [] := by
  obtain ⟨c, hc, hs⟩ := hw
  have hne : skipSpace w ≠ [] := by
    intro hnil
    have hall := List.dropWhile_eq_nil_iff.mp hnil c hc
    rw [hs] at hall
    cases hall
  refine ⟨?_, hne⟩
  unfold skipSpace at hne ⊢
  rw [List.dropWhile_append, if_neg (by simpa using hne)]

/-- **A scan ends before the blank that follows something else than blanks.** -/
theorem scanInt_stops (base : Nat) (w r rest : Bytes) (v : Int) (hw : ∃ c ∈ w, isSpace c = false)
    (h : scanInt base (w ++ 32 :: r) = some (v, rest)) : ∃ u, rest = u ++ 32 :: r := by
  obtain ⟨hskip, hne⟩ := skipSpace_append w (32 :: r) hw
  obtain ⟨c, cs, hcs⟩ := List.exists_cons_of_ne_nil hne
  unfold scanInt at h
  rw [hskip, hcs, List.cons_append] at h
  simp only [] at h
  split at h
  · exact scanDigits_stops base true cs r rest v h
  · split at h
    · exact scanDigits_stops base false cs r rest v h
    · exact scanDigits_stops base false (c :: cs) r rest v h

end Numeral
