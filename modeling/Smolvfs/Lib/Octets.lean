import Mathlib.Data.Fintype.BigOperators
import Mathlib.Data.Fintype.Option
import Mathlib.Data.List.Basic
import Mathlib.Data.List.TakeWhile
import Mathlib.Tactic.Ring

/-!
# Octet strings: slices, little-endian integers, concatenated blocks

What a reader of a binary file needs of `List UInt8`:

* `slice b off len`: the `len` octets at `off`, and how slices meet `++`;
* `storeLe n v` / `loadLe b`: little-endian integers, read back as they were stored
  (`loadLe_storeLe`);
* `offsetOf l i`: where block `i` starts in `l.flatten` (`slice_flatten`), and
  the fixed-width case (`slice_flatMap`);
* what comes before the first separator of a string (`takeWhile_ne_append`), by which it
  is told apart (`append_sep_inj`);
* `length_le_of_short`: how many strings of bounded length there can be.
-/

namespace Octets

abbrev Bytes := List UInt8

/-! ## Slices -/

section
variable {α : Type}

def slice (b : List α) (off len : Nat) : List α := (b.drop off).take len

theorem length_slice (b : List α) (off len : Nat) (h : off + len ≤ b.length) :
    (slice b off len).length = len := by
  simp only [slice, List.length_take, List.length_drop]
  omega

theorem length_slice_le (b : List α) (off len : Nat) : (slice b off len).length ≤ len := by
  simp only [slice, List.length_take]
  omega

theorem slice_append_left (a b : List α) (off len : Nat) (h : off + len ≤ a.length) :
    slice (a ++ b) off len = slice a off len := by
  unfold slice
  rw [List.drop_append_of_le_length (by omega), List.take_append_of_le_length]
  rw [List.length_drop]
  omega

theorem slice_append_right (a b : List α) (off len : Nat) (h : a.length ≤ off) :
    slice (a ++ b) off len = slice b (off - a.length) len := by
  unfold slice
  rw [List.drop_append, List.drop_eq_nil_of_le h, List.nil_append]

theorem slice_append_add (a b : List α) (off len : Nat) :
    slice (a ++ b) (a.length + off) len = slice b off len := by
  rw [slice_append_right _ _ _ _ (by omega)]
  congr 1
  omega

theorem slice_append_of_eq (a b : List α) (off o len : Nat) (h : off = a.length + o) :
    slice (a ++ b) off len = slice b o len := by
  rw [h, slice_append_add]

theorem slice_front (a b : List α) (len : Nat) (h : len = a.length) : slice (a ++ b) 0 len = a := by
  subst h
  simp [slice]

theorem slice_all (b : List α) (len : Nat) (h : len = b.length) : slice b 0 len = b := by
  subst h
  simp [slice]

theorem slice_middle (a b c : List α) (off len : Nat) (ho : off = a.length) (hl : len = b.length) :
    slice (a ++ b ++ c) off len = b := by
  subst ho hl
  simp [slice]

/-- Two slices next to each other are one. -/
theorem slice_add (b : List α) (off m n : Nat) : slice b off (m + n) = slice b off m ++ slice b (off + m) n := by
  unfold slice
  rw [List.take_add, List.drop_drop]

theorem slice_slice (b : List α) (off len o l : Nat) (h : o + l ≤ len) :
    slice (slice b off len) o l = slice b (off + o) l := by
  unfold slice
  rw [List.drop_take, List.take_take, List.drop_drop]
  congr 1
  omega

end

/-! ## Little-endian integers -/

def loadLe : Bytes → Nat
  | [] => 0
  | b :: bs => b.toNat + 256 * loadLe bs

def storeLe : Nat → Nat → Bytes
  | 0, _ => []
  | n + 1, v => UInt8.ofNat (v % 256) :: storeLe n (v / 256)

@[simp] theorem length_storeLe (n v : Nat) : (storeLe n v).length = n := by
  induction n generalizing v with
  | zero => rfl
  | succ n ih => simp [storeLe, ih]

theorem loadLe_lt (b : Bytes) : loadLe b < 256 ^ b.length := by
  induction b with
  | nil => simp [loadLe]
  | cons x xs ih =>
    have hx := x.toNat_lt
    simp only [loadLe, List.length_cons, Nat.pow_succ]
    omega

theorem loadLe_storeLe (n v : Nat) : loadLe (storeLe n v) = v % 256 ^ n := by
  induction n generalizing v with
  | zero => simp [storeLe, loadLe, Nat.mod_one]
  | succ n ih =>
    have hb : (UInt8.ofNat (v % 256)).toNat = v % 256 := by
      rw [UInt8.toNat_ofNat']
      omega
    rw [storeLe, loadLe, hb, ih, Nat.pow_succ, Nat.mul_comm (256 ^ n) 256, Nat.mod_mul]

theorem loadLe_storeLe_of_lt (n v : Nat) (h : v < 256 ^ n) : loadLe (storeLe n v) = v := by
  rw [loadLe_storeLe, Nat.mod_eq_of_lt h]

theorem storeLe_loadLe (b : Bytes) : storeLe b.length (loadLe b) = b := by
  induction b with
  | nil => rfl
  | cons x xs ih =>
    have hx := x.toNat_lt
    rw [List.length_cons, storeLe, loadLe, Nat.add_mul_mod_self_left, Nat.mod_eq_of_lt hx, UInt8.ofNat_toNat,
      Nat.add_mul_div_left _ _ (by omega), Nat.div_eq_of_lt hx, Nat.zero_add, ih]

/-! ## Up to a separator -/

section
variable {sep : UInt8}

theorem takeWhile_ne (b : Bytes) (h : sep ∉ b) : b.takeWhile (· != sep) = b := by
  rw [List.takeWhile_eq_self_iff]
  intro c hc
  simp only [bne_iff_ne, ne_eq]
  rintro rfl
  exact h hc

theorem not_mem_takeWhile_ne (b : Bytes) : sep ∉ b.takeWhile (· != sep) := by
  intro h
  have := List.mem_takeWhile_imp h
  simp at this

theorem takeWhile_ne_append (a b : Bytes) (h : sep ∉ a) : (a ++ sep :: b).takeWhile (· != sep) = a := by
  rw [List.takeWhile_append, takeWhile_ne a h, if_pos rfl]
  simp

theorem dropWhile_ne_append (a b : Bytes) (h : sep ∉ a) : (a ++ sep :: b).dropWhile (· != sep) = sep :: b := by
  have hsplit := List.takeWhile_append_dropWhile (p := (· != sep)) (l := a ++ sep :: b)
  rw [takeWhile_ne_append a b h] at hsplit
  exact List.append_cancel_left hsplit

/-- What stands before the first separator is told from what is behind it. -/
theorem append_sep_inj {a b x y : Bytes} (sep : UInt8) (ha : sep ∉ a) (hb : sep ∉ b)
    (h : a ++ sep :: x = b ++ sep :: y) : a = b ∧ x = y := by
  have htake := takeWhile_ne_append a x ha
  have hdrop := dropWhile_ne_append a x ha
  rw [h] at htake hdrop
  rw [takeWhile_ne_append b y hb] at htake
  rw [dropWhile_ne_append b y hb] at hdrop
  exact ⟨htake.symm, (List.cons.inj hdrop).2.symm⟩

end

/-! ## Concatenated blocks -/

section
variable {α β : Type}

/-- Where block `i` of `l` starts in `l.flatten`. -/
def offsetOf (l : List (List α)) (i : Nat) : Nat := ((l.take i).map List.length).sum

@[simp] theorem offsetOf_zero (l : List (List α)) : offsetOf l 0 = 0 := by simp [offsetOf]

theorem offsetOf_cons (b : List α) (l : List (List α)) (i : Nat) :
    offsetOf (b :: l) (i + 1) = b.length + offsetOf l i := by simp [offsetOf]

theorem offsetOf_length (l : List (List α)) : offsetOf l l.length = l.flatten.length := by
  simp [offsetOf, List.length_flatten]

theorem offsetOf_add_le (l : List (List α)) (i : Nat) (h : i < l.length) :
    offsetOf l i + l[i].length ≤ l.flatten.length := by
  induction l generalizing i with
  | nil => simp at h
  | cons b l ih =>
    cases i with
    | zero => simp
    | succ i =>
      have hi := ih i (by simpa using h)
      simp only [offsetOf_cons, List.flatten_cons, List.length_append, List.getElem_cons_succ]
      omega

theorem slice_flatten (l : List (List α)) (i : Nat) (h : i < l.length) :
    slice l.flatten (offsetOf l i) l[i].length = l[i] := by
  induction l generalizing i with
  | nil => simp at h
  | cons b l ih =>
    cases i with
    | zero => simpa using slice_front b l.flatten _ rfl
    | succ i =>
      rw [offsetOf_cons, List.flatten_cons, slice_append_add]
      exact ih i (by simpa using h)

theorem offsetOf_map_const (l : List β) (f : β → List α) (k : Nat) (hf : ∀ x ∈ l, (f x).length = k)
    (i : Nat) (h : i ≤ l.length) : offsetOf (l.map f) i = i * k := by
  induction l generalizing i with
  | nil => simp at h; simp [h]
  | cons b l ih =>
    cases i with
    | zero => simp
    | succ i =>
      rw [List.map_cons, offsetOf_cons, ih (fun x hx => hf x (by simp [hx])) i (by simpa using h),
        hf b (by simp)]
      ring

/-- Blocks of one width `k`: block `i` is at `i * k`. -/
theorem slice_flatMap (l : List β) (f : β → List α) (k : Nat) (hf : ∀ x ∈ l, (f x).length = k)
    (i : Nat) (h : i < l.length) : slice (l.flatMap f) (i * k) k = f l[i] := by
  have hs := slice_flatten (l.map f) i (by simpa using h)
  rw [offsetOf_map_const l f k hf i (by omega)] at hs
  simp only [List.getElem_map] at hs
  rw [hf _ (List.getElem_mem h)] at hs
  rw [List.flatMap_def]
  exact hs

theorem length_flatMap_const (l : List β) (f : β → List α) (k : Nat) (hf : ∀ x ∈ l, (f x).length = k) :
    (l.flatMap f).length = l.length * k := by
  induction l with
  | nil => simp
  | cons b l ih =>
    rw [List.flatMap_cons, List.length_append, ih (fun x hx => hf x (by simp [hx])), hf b (by simp),
      List.length_cons]
    ring

end

/-! ## Counting -/

/-- The octet at each of the first `n` places of a string. -/
def places (n : Nat) (b : Bytes) : Fin n → Option (Fin 256) := fun i => b[i.1]?.map UInt8.toFin

theorem places_inj (n : Nat) (a b : Bytes) (ha : a.length ≤ n) (hb : b.length ≤ n) (h : places n a = places n b) :
    a = b := by
  apply List.ext_getElem?
  intro i
  by_cases hi : i < n
  · have := congrFun h ⟨i, hi⟩
    exact Option.map_injective (fun _ _ => UInt8.toFin_inj.mp) this
  · rw [List.getElem?_eq_none (by omega), List.getElem?_eq_none (by omega)]

/-- There are at most as many strings of up to `n` octets as numbers of `n` digits in base 257. -/
theorem length_le_of_short (n : Nat) (l : List Bytes) (hl : l.Nodup) (hs : ∀ b ∈ l, b.length ≤ n) :
    l.length ≤ 257 ^ n := by
  have hnd : (l.map (places n)).Nodup := by
    refine (List.nodup_map_iff_inj_on hl).mpr ?_
    intro a ha b hb h
    exact places_inj n a b (hs a ha) (hs b hb) h
  have := hnd.length_le_card
  simpa using this

end Octets
