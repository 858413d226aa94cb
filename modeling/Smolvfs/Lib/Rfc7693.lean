import Mathlib.Data.Nat.Digits.Defs

/-!
# BLAKE2b

BLAKE2b without a key, as RFC 7693 has it: the words of section 2.1, the constants of
2.6 and 2.7, the mixing function `G` of 3.1, the compression function `F` of 3.2 and
the hash of 3.3.

What goes before in a message decides what its blocks are worth (`chain_append`).
-/

namespace Rfc7693

/-- The parameter `w` is 64, so words are added modulo `2 ^ 64`. -/
abbrev Word := UInt64

def IV : Vector Word 8 := #v[
  0x6A09E667F3BCC908, 0xBB67AE8584CAA73B, 0x3C6EF372FE94F82B, 0xA54FF53A5F1D36F1,
  0x510E527FADE682D1, 0x9B05688C2B3E6C1F, 0x1F83D9ABFB41BD6B, 0x5BE0CD19137E2179]

local instance eightWords : NeZero 8 := ⟨by decide⟩

local instance sixteenWords : NeZero 16 := ⟨by decide⟩

def SIGMA : Vector (Vector (Fin 16) 16) 10 := #v[
  #v[0, 1, 2, 3, 4, 5, 6, 7, 8, 9, 10, 11, 12, 13, 14, 15],
  #v[14, 10, 4, 8, 9, 15, 13, 6, 1, 12, 0, 2, 11, 7, 5, 3],
  #v[11, 8, 12, 0, 5, 2, 15, 13, 10, 14, 3, 6, 7, 1, 9, 4],
  #v[7, 9, 3, 1, 13, 12, 11, 14, 2, 6, 5, 10, 4, 0, 15, 8],
  #v[9, 0, 5, 7, 2, 4, 10, 15, 14, 1, 11, 12, 6, 8, 3, 13],
  #v[2, 12, 6, 10, 0, 11, 8, 3, 4, 13, 7, 5, 15, 14, 1, 9],
  #v[12, 5, 1, 15, 14, 13, 4, 10, 0, 7, 6, 3, 9, 2, 8, 11],
  #v[13, 11, 7, 14, 12, 1, 3, 9, 5, 0, 15, 4, 8, 6, 2, 10],
  #v[6, 15, 14, 9, 11, 3, 0, 8, 12, 2, 13, 7, 1, 4, 10, 5],
  #v[10, 2, 8, 4, 7, 6, 1, 5, 15, 11, 9, 14, 3, 12, 13, 0]]

/-- `v[i] := x`. -/
def put {n : Nat} (v : Vector Word n) (i : Fin n) (x : Word) : Vector Word n := v.set i.val x i.isLt

/-- `x >>> n`, a rotation. -/
def rotr (x : Word) (n : Nat) : Word := ⟨x.toBitVec.rotateRight n⟩

/-- The rotation constants are 32, 24, 16 and 63. -/
def G (v : Vector Word 16) (a b c d : Fin 16) (x y : Word) : Vector Word 16 :=
  let v := put v a (v.get a + v.get b + x)
  let v := put v d (rotr (v.get d ^^^ v.get a) 32)
  let v := put v c (v.get c + v.get d)
  let v := put v b (rotr (v.get b ^^^ v.get c) 24)
  let v := put v a (v.get a + v.get b + y)
  let v := put v d (rotr (v.get d ^^^ v.get a) 16)
  let v := put v c (v.get c + v.get d)
  put v b (rotr (v.get b ^^^ v.get c) 63)

/-- A round: the columns, then the diagonals. -/
def mix (m v : Vector Word 16) (s : Vector (Fin 16) 16) : Vector Word 16 :=
  let v := G v 0 4 8 12 (m.get (s.get 0)) (m.get (s.get 1))
  let v := G v 1 5 9 13 (m.get (s.get 2)) (m.get (s.get 3))
  let v := G v 2 6 10 14 (m.get (s.get 4)) (m.get (s.get 5))
  let v := G v 3 7 11 15 (m.get (s.get 6)) (m.get (s.get 7))
  let v := G v 0 5 10 15 (m.get (s.get 8)) (m.get (s.get 9))
  let v := G v 1 6 11 12 (m.get (s.get 10)) (m.get (s.get 11))
  let v := G v 2 7 8 13 (m.get (s.get 12)) (m.get (s.get 13))
  G v 3 4 9 14 (m.get (s.get 14)) (m.get (s.get 15))

/-- The schedule of round `i` is number `i mod 10`. -/
def schedule (i : Nat) : Vector (Fin 16) 16 := SIGMA.get ⟨i % 10, Nat.mod_lt _ (by decide)⟩

/-- The compression function, with the 128-bit offset counter and the flag of the last block. -/
def F (h : Vector Word 8) (m : Vector Word 16) (t : Nat) (f : Bool) : Vector Word 8 :=
  let v : Vector Word 16 := h ++ IV
  let v := put v 12 (v.get 12 ^^^ UInt64.ofNat (t % 2 ^ 64))
  let v := put v 13 (v.get 13 ^^^ UInt64.ofNat (t / 2 ^ 64))
  let v := if f then put v 14 (v.get 14 ^^^ 0xFFFFFFFFFFFFFFFF) else v
  let v := (List.range 12).foldl (fun v i => mix m v (schedule i)) v
  Vector.ofFn fun i => h.get i ^^^ v.get (i.castAdd 8) ^^^ v.get (i.addNat 8)

/-- `d[i]`, with the zeros it is padded with. -/
def block (msg : List UInt8) (i : Nat) : List UInt8 :=
  let octets := (msg.drop (128 * i)).take 128
  octets ++ List.replicate (128 - octets.length) 0

/-- The sixteen little-endian words of a block. -/
def words (octets : List UInt8) : Vector Word 16 :=
  Vector.ofFn fun i => UInt64.ofNat (Nat.ofDigits 256 (((octets.drop (8 * i.val)).take 8).map UInt8.toNat))

/-- `dd`; a message without octets has one block all the same. -/
def blockCount (ll : Nat) : Nat := max 1 ((ll + 127) / 128)

/-- The parameter block of a hash of `nn` octets without a key. -/
def start (nn : Nat) : Vector Word 8 := put IV 0 (IV.get 0 ^^^ 0x01010000 ^^^ UInt64.ofNat nn)

/-- The chaining value after `k` blocks that are not the last. -/
def chain (nn : Nat) (msg : List UInt8) : Nat → Vector Word 8
  | 0 => start nn
  | k + 1 => F (chain nn msg k) (words (block msg k)) (128 * (k + 1)) false

/-- Octet `i` of the little-endian words. -/
def octet (h : Vector Word 8) (i : Nat) : UInt8 :=
  if hi : i < 64 then UInt8.ofNat ((h.get ⟨i / 8, by omega⟩).toNat / 256 ^ (i % 8) % 256) else 0

/-- The unkeyed hash of `nn` octets. -/
def blake2b (nn : Nat) (msg : List UInt8) : List UInt8 :=
  let dd := blockCount msg.length
  let h := F (chain nn msg (dd - 1)) (words (block msg (dd - 1))) msg.length true
  (List.range nn).map (octet h)

/-- The example of appendix A, BLAKE2b-512 of `abc`. -/
example : blake2b 64 [0x61, 0x62, 0x63] = [
    0xBA, 0x80, 0xA5, 0x3F, 0x98, 0x1C, 0x4D, 0x0D, 0x6A, 0x27, 0x97, 0xB6, 0x9F, 0x12, 0xF6, 0xE9,
    0x4C, 0x21, 0x2F, 0x14, 0x68, 0x5A, 0xC4, 0xB7, 0x4B, 0x12, 0xBB, 0x6F, 0xDB, 0xFF, 0xA2, 0xD1,
    0x7D, 0x87, 0xC5, 0x39, 0x2A, 0xAB, 0x79, 0x2D, 0xC2, 0x52, 0xD5, 0xDE, 0x45, 0x33, 0xCC, 0x95,
    0x18, 0xD3, 0x8A, 0xA8, 0xDB, 0xF1, 0x92, 0x5A, 0xB9, 0x23, 0x86, 0xED, 0xD4, 0x00, 0x99, 0x23] := by
  decide +kernel

/-! ## Blocks of a longer message -/

theorem block_full (msg : List UInt8) (i : Nat) (h : 128 * (i + 1) ≤ msg.length) :
    block msg i = (msg.drop (128 * i)).take 128 := by
  unfold block
  have hlen : ((msg.drop (128 * i)).take 128).length = 128 := by
    rw [List.length_take, List.length_drop]
    omega
  dsimp only
  rw [hlen, Nat.sub_self, List.replicate_zero, List.append_nil]

theorem block_append (msg more : List UInt8) (i : Nat) (h : 128 * (i + 1) ≤ msg.length) :
    block (msg ++ more) i = block msg i := by
  rw [block_full msg i h, block_full (msg ++ more) i (by rw [List.length_append]; omega),
    List.drop_append_of_le_length (by omega), List.take_append_of_le_length (by rw [List.length_drop]; omega)]

/-- **Whole blocks chain alike** whatever comes after them. -/
theorem chain_append (nn : Nat) (msg more : List UInt8) (k : Nat) (h : 128 * k ≤ msg.length) :
    chain nn (msg ++ more) k = chain nn msg k := by
  induction k with
  | zero => rfl
  | succ k ih =>
    unfold chain
    rw [ih (by omega), block_append msg more k h]

end Rfc7693
