import Smolvfs.Basic

/-!
# BLAKE2b-256

The hash of `cas.c` (RFC 7693), 64-bit words as `UInt64`, the state's eight
chaining words and the sixteen working words as vectors.  What the rest of the
development uses of it is that a digest has 32 octets (`length_digest`).
-/

namespace Smolvfs

open Octets

def BLAKE2B_BLOCKLEN : Nat := 128

structure Blake2b where
  h : Vector UInt64 8
  t0 : UInt64
  t1 : UInt64
  f0 : UInt64
  f1 : UInt64
  buf : Bytes
  outlen : Nat

def blake2bIv : Vector UInt64 8 := #v[
  0x6a09e667f3bcc908, 0xbb67ae8584caa73b,
  0x3c6ef372fe94f82b, 0xa54ff53a5f1d36f1,
  0x510e527fade682d1, 0x9b05688c2b3e6c1f,
  0x1f83d9abfb41bd6b, 0x5be0cd19137e2179]

def blake2bSigma : List (Vector (Fin 16) 16) := [
  #v[ 0,  1,  2,  3,  4,  5,  6,  7,  8,  9, 10, 11, 12, 13, 14, 15],
  #v[14, 10,  4,  8,  9, 15, 13,  6,  1, 12,  0,  2, 11,  7,  5,  3],
  #v[11,  8, 12,  0,  5,  2, 15, 13, 10, 14,  3,  6,  7,  1,  9,  4],
  #v[ 7,  9,  3,  1, 13, 12, 11, 14,  2,  6,  5, 10,  4,  0, 15,  8],
  #v[ 9,  0,  5,  7,  2,  4, 10, 15, 14,  1, 11, 12,  6,  8,  3, 13],
  #v[ 2, 12,  6, 10,  0, 11,  8,  3,  4, 13,  7,  5, 15, 14,  1,  9],
  #v[12,  5,  1, 15, 14, 13,  4, 10,  0,  7,  6,  3,  9,  2,  8, 11],
  #v[13, 11,  7, 14, 12,  1,  3,  9,  5,  0, 15,  4,  8,  6,  2, 10],
  #v[ 6, 15, 14,  9, 11,  3,  0,  8, 12,  2, 13,  7,  1,  4, 10,  5],
  #v[10,  2,  8,  4,  7,  6,  1,  5, 15, 11,  9, 14,  3, 12, 13,  0],
  #v[ 0,  1,  2,  3,  4,  5,  6,  7,  8,  9, 10, 11, 12, 13, 14, 15],
  #v[14, 10,  4,  8,  9, 15, 13,  6,  1, 12,  0,  2, 11,  7,  5,  3]]

def load64 (p : Bytes) : UInt64 := UInt64.ofNat (loadLe (slice p 0 8))

def store64 (w : UInt64) : Bytes := storeLe 8 w.toNat

def rotr64 (x : UInt64) (n : UInt64) : UInt64 := (x >>> n) ||| (x <<< (64 - n))

def blake2bG (v : Vector UInt64 16) (a b c d : Fin 16) (x y : UInt64) : Vector UInt64 16 :=
  let v := v.set a (v[a] + v[b] + x)
  let v := v.set d (rotr64 (v[d] ^^^ v[a]) 32)
  let v := v.set c (v[c] + v[d])
  let v := v.set b (rotr64 (v[b] ^^^ v[c]) 24)
  let v := v.set a (v[a] + v[b] + y)
  let v := v.set d (rotr64 (v[d] ^^^ v[a]) 16)
  let v := v.set c (v[c] + v[d])
  v.set b (rotr64 (v[b] ^^^ v[c]) 63)

def blake2bRound (m : Vector UInt64 16) (v : Vector UInt64 16) (s : Vector (Fin 16) 16) :
    Vector UInt64 16 :=
  let v := blake2bG v 0 4 8 12 m[s[0]] m[s[1]]
  let v := blake2bG v 1 5 9 13 m[s[2]] m[s[3]]
  let v := blake2bG v 2 6 10 14 m[s[4]] m[s[5]]
  let v := blake2bG v 3 7 11 15 m[s[6]] m[s[7]]
  let v := blake2bG v 0 5 10 15 m[s[8]] m[s[9]]
  let v := blake2bG v 1 6 11 12 m[s[10]] m[s[11]]
  let v := blake2bG v 2 7 8 13 m[s[12]] m[s[13]]
  blake2bG v 3 4 9 14 m[s[14]] m[s[15]]

def blake2bCompress (S : Blake2b) (block : Bytes) : Blake2b :=
  let m : Vector UInt64 16 := Vector.ofFn fun i => load64 (block.drop (i.val * 8))
  let v : Vector UInt64 16 := (S.h ++ blake2bIv)
  let v := v.set 12 (v[12] ^^^ S.t0)
  let v := v.set 13 (v[13] ^^^ S.t1)
  let v := v.set 14 (v[14] ^^^ S.f0)
  let v := v.set 15 (v[15] ^^^ S.f1)
  let v := blake2bSigma.foldl (blake2bRound m) v
  { S with h := Vector.ofFn fun i => S.h[i] ^^^ v[i.val] ^^^ v[i.val + 8] }

def blake2bInit (outlen : Nat) : Blake2b where
  h := blake2bIv.set 0 (blake2bIv[0] ^^^ (0x01010000 ^^^ UInt64.ofNat outlen))
  t0 := 0
  t1 := 0
  f0 := 0
  f1 := 0
  buf := []
  outlen := outlen

/-- `S->t` counts `n` more octets. -/
def blake2bCount (S : Blake2b) (n : UInt64) : Blake2b :=
  let t0 := S.t0 + n
  { S with t0 := t0, t1 := S.t1 + (if t0 < n then 1 else 0) }

/-- The `while (len > BLAKE2B_BLOCKLEN)` loop: whole blocks go in, the last one stays. -/
def blake2bBlocks : Nat → Blake2b → Bytes → Blake2b
  | 0, S, p => { S with buf := p }
  | fuel + 1, S, p =>
    if p.length > BLAKE2B_BLOCKLEN then
      blake2bBlocks fuel (blake2bCompress (blake2bCount S 128) p) (p.drop BLAKE2B_BLOCKLEN)
    else { S with buf := p }

def blake2bUpdate (S : Blake2b) (data : Bytes) : Blake2b :=
  if data.length = 0 then S
  else
    let fill := BLAKE2B_BLOCKLEN - S.buf.length
    if data.length > fill then
      let S' := blake2bCompress (blake2bCount S 128) (S.buf ++ data.take fill)
      blake2bBlocks data.length S' (data.drop fill)
    else { S with buf := S.buf ++ data }

def blake2bFinal (S : Blake2b) : Bytes :=
  let S := blake2bCount S (UInt64.ofNat S.buf.length)
  let S := { S with f0 := ~~~(0 : UInt64) }
  let S := blake2bCompress S (S.buf ++ List.replicate (BLAKE2B_BLOCKLEN - S.buf.length) 0)
  (S.h.toList.flatMap store64).take S.outlen

/-- `cas_digest` -/
def casDigest (data : Bytes) : Bytes := blake2bFinal (blake2bUpdate (blake2bInit CAS_HASH_LEN) data)

/-- The digest of `abc`, RFC 7693 appendix A with a 256-bit output. -/
example : casDigest [0x61, 0x62, 0x63] = [
    0xbd, 0xdd, 0x81, 0x3c, 0x63, 0x42, 0x39, 0x72, 0x31, 0x71, 0xef, 0x3f, 0xee, 0x98, 0x57, 0x9b,
    0x94, 0x96, 0x4e, 0x3b, 0xb1, 0xcb, 0x3e, 0x42, 0x72, 0x62, 0xc8, 0xc0, 0x68, 0xd5, 0x23, 0x19] := by
  decide +kernel

/-- The digest of a header and a body fed in turn, as the object functions do. -/
def digest2 (hdr data : Bytes) : Bytes :=
  blake2bFinal (blake2bUpdate (blake2bUpdate (blake2bInit CAS_HASH_LEN) hdr) data)

theorem length_blake2bFinal (S : Blake2b) (h : S.outlen ≤ 64) : (blake2bFinal S).length = S.outlen := by
  unfold blake2bFinal
  simp only [List.length_take]
  rw [length_flatMap_const _ store64 8 (by intro x _; simp [store64])]
  simp only [Vector.length_toList, blake2bCompress, blake2bCount]
  omega

theorem outlen_blake2bBlocks (fuel : Nat) (S : Blake2b) (p : Bytes) :
    (blake2bBlocks fuel S p).outlen = S.outlen := by
  induction fuel generalizing S p with
  | zero => rfl
  | succ fuel ih =>
    unfold blake2bBlocks
    split
    · rw [ih]
      rfl
    · rfl

theorem outlen_blake2bUpdate (S : Blake2b) (data : Bytes) : (blake2bUpdate S data).outlen = S.outlen := by
  unfold blake2bUpdate
  split
  · rfl
  · simp only []
    split
    · rw [outlen_blake2bBlocks]
      rfl
    · rfl

theorem length_casDigest (data : Bytes) : (casDigest data).length = CAS_HASH_LEN := by
  have h : (blake2bUpdate (blake2bInit CAS_HASH_LEN) data).outlen = CAS_HASH_LEN :=
    outlen_blake2bUpdate _ _
  unfold casDigest
  rw [length_blake2bFinal _ (by rw [h]; decide), h]

theorem length_digest2 (hdr data : Bytes) : (digest2 hdr data).length = CAS_HASH_LEN := by
  have h : (blake2bUpdate (blake2bUpdate (blake2bInit CAS_HASH_LEN) hdr) data).outlen = CAS_HASH_LEN := by
    rw [outlen_blake2bUpdate, outlen_blake2bUpdate]
    rfl
  unfold digest2
  rw [length_blake2bFinal _ (by rw [h]; decide), h]

end Smolvfs
