import Smolvfs.Header
import Smolvfs.Lib.Rfc7693

/-!
# The hash against its specification

`blake2b_compress` is the RFC's function `F` (`blake2bCompress_eq`).  Between updates
the state has taken all blocks of the message but the last and holds that one back,
whole or not (`Absorbed`), so that `blake2b_final` can flag it.

`streaming_meets_rfc`: however a message is cut into updates, the digest is the one of
RFC 7693.
-/

namespace Smolvfs

open Octets

/-! ## Compression -/

/-- The macro is a rotation. -/
theorem rotr64_eq (x : UInt64) (n : Nat) (h0 : 0 < n) (h : n < 64) : rotr64 x (UInt64.ofNat n) = Rfc7693.rotr x n := by
  have hn : (UInt64.ofNat n).toBitVec = BitVec.ofNat 64 n := rfl
  have hright : (BitVec.ofNat 64 n % 64).toNat = n := by
    rw [BitVec.toNat_umod, BitVec.toNat_ofNat]
    show n % 2 ^ 64 % 64 = n
    omega
  have hleft : (((64 : UInt64) - UInt64.ofNat n).toBitVec % 64).toNat = 64 - n := by
    rw [BitVec.toNat_umod, UInt64.toBitVec_sub, BitVec.toNat_sub, hn, BitVec.toNat_ofNat]
    show (2 ^ 64 - n % 2 ^ 64 + 64) % 2 ^ 64 % 64 = _
    omega
  apply UInt64.toBitVec_inj.mp
  unfold rotr64 Rfc7693.rotr
  rw [UInt64.toBitVec_or, UInt64.toBitVec_shiftRight, UInt64.toBitVec_shiftLeft, hn,
    BitVec.ushiftRight_eq', BitVec.shiftLeft_eq', hright, hleft, BitVec.rotateRight_def, Nat.mod_eq_of_lt h]

theorem blake2bG_eq (v : Vector UInt64 16) (a b c d : Fin 16) (x y : UInt64) :
    blake2bG v a b c d x y = Rfc7693.G v a b c d x y := by
  have h32 : ∀ z, rotr64 z 32 = Rfc7693.rotr z 32 := fun z => rotr64_eq z 32 (by decide) (by decide)
  have h24 : ∀ z, rotr64 z 24 = Rfc7693.rotr z 24 := fun z => rotr64_eq z 24 (by decide) (by decide)
  have h16 : ∀ z, rotr64 z 16 = Rfc7693.rotr z 16 := fun z => rotr64_eq z 16 (by decide) (by decide)
  have h63 : ∀ z, rotr64 z 63 = Rfc7693.rotr z 63 := fun z => rotr64_eq z 63 (by decide) (by decide)
  have hput : ∀ (v : Vector UInt64 16) (i : Fin 16) z, v.set i z = Rfc7693.put v i z := fun _ _ _ => rfl
  have hget : ∀ (v : Vector UInt64 16) (i : Fin 16), v[i] = v.get i := fun _ _ => rfl
  unfold blake2bG Rfc7693.G
  simp only [h32, h24, h16, h63, hput, hget]

theorem blake2bRound_eq (m v : Vector UInt64 16) (s : Vector (Fin 16) 16) :
    blake2bRound m v s = Rfc7693.mix m v s := by
  unfold blake2bRound Rfc7693.mix
  simp only [blake2bG_eq]
  rfl

/-- The twelve rows of the table are the ten schedules and the first two again. -/
theorem blake2bSigma_eq : blake2bSigma = (List.range 12).map Rfc7693.schedule := by decide

/-- A word read in little-endian order. -/
theorem loadLe_eq (b : Bytes) : loadLe b = Nat.ofDigits 256 (b.map UInt8.toNat) := by
  induction b with
  | nil => rfl
  | cons c b ih =>
    rw [loadLe, ih, List.map_cons, Nat.ofDigits_cons]

/-- **A compression is `F`**, with the counter and the flag as the state has them. -/
theorem blake2bCompress_eq (S : Blake2b) (p : Bytes) (f : Bool) (hf0 : S.f0 = if f then 0xFFFFFFFFFFFFFFFF else 0)
    (hf1 : S.f1 = 0) :
    (blake2bCompress S p).h = Rfc7693.F S.h (Rfc7693.words p) (S.t0.toNat + 2 ^ 64 * S.t1.toNat) f := by
  have hwords : (Vector.ofFn fun i : Fin 16 => load64 (p.drop (i.val * 8))) = Rfc7693.words p := by
    unfold Rfc7693.words load64
    simp only [loadLe_eq, slice, List.drop_zero, Nat.mul_comm]
  have hlow : UInt64.ofNat ((S.t0.toNat + 2 ^ 64 * S.t1.toNat) % 2 ^ 64) = S.t0 := by
    have hlt := S.t0.toNat_lt
    rw [Nat.add_mul_mod_self_left, Nat.mod_eq_of_lt hlt, UInt64.ofNat_toNat]
  have hhigh : UInt64.ofNat ((S.t0.toNat + 2 ^ 64 * S.t1.toNat) / 2 ^ 64) = S.t1 := by
    have hlt := S.t0.toNat_lt
    rw [Nat.add_mul_div_left _ _ (by decide), Nat.div_eq_of_lt hlt, Nat.zero_add, UInt64.ofNat_toNat]
  have hiv : blake2bIv = Rfc7693.IV := rfl
  unfold blake2bCompress Rfc7693.F
  simp only [hwords, hlow, hhigh, blake2bSigma_eq, hiv, List.foldl_map, hf0, hf1, blake2bRound_eq]
  -- the word of `f1` is always zero
  cases f
  · simp only [Bool.false_eq_true, if_false, UInt64.xor_zero, Vector.set_getElem_self, Fin.getElem_fin]
    rfl
  · simp only [if_true, UInt64.xor_zero, Vector.set_getElem_self, Fin.getElem_fin]
    rfl

/-! ## Blocks -/

/-- The block of a message that is held back. -/
def lastBlock (len : Nat) : Nat := Rfc7693.blockCount len - 1

theorem lastBlock_bounds (len : Nat) : 128 * lastBlock len ≤ len ∧ len ≤ 128 * (lastBlock len + 1) := by
  unfold lastBlock Rfc7693.blockCount
  omega

theorem lastBlock_eq {len k : Nat} (h : 128 * k < len) (h' : len ≤ 128 * (k + 1)) : lastBlock len = k := by
  unfold lastBlock Rfc7693.blockCount
  omega

/-- A block's words are those of its 128 octets. -/
theorem words_take (p : Bytes) : Rfc7693.words (p.take 128) = Rfc7693.words p := by
  unfold Rfc7693.words
  congr 1
  funext i
  have hi := i.isLt
  rw [List.drop_take, List.take_take, Nat.min_eq_left (by omega)]

/-- The state after `k` blocks of a message, but for its buffer. -/
structure BlocksChained (S : Blake2b) (msg : Bytes) (k : Nat) : Prop where
  h : S.h = Rfc7693.chain CAS_HASH_LEN msg k
  t0 : S.t0.toNat = 128 * k
  t1 : S.t1 = 0
  f0 : S.f0 = 0
  f1 : S.f1 = 0
  outlen : S.outlen = CAS_HASH_LEN

theorem BlocksChained.append {S : Blake2b} {msg : Bytes} {k : Nat} (h : BlocksChained S msg k)
    (hk : 128 * k ≤ msg.length)
    (more : Bytes) : BlocksChained S (msg ++ more) k :=
  { h with h := by rw [Rfc7693.chain_append _ _ _ _ hk, h.h] }

theorem BlocksChained.buffer {S : Blake2b} {msg : Bytes} {k : Nat} (h : BlocksChained S msg k) (buf : Bytes) :
    BlocksChained { S with buf := buf } msg k := ⟨h.h, h.t0, h.t1, h.f0, h.f1, h.outlen⟩

/-- The counter has no carry below `2 ^ 64`. -/
theorem blake2bCount_eq {S : Blake2b} (n : Nat) (ht : S.t0.toNat + n < 2 ^ 64) :
    (blake2bCount S (UInt64.ofNat n)).t0.toNat = S.t0.toNat + n ∧ (blake2bCount S (UInt64.ofNat n)).t1 = S.t1 := by
  have hn : (UInt64.ofNat n).toNat = n := UInt64.toNat_ofNat_of_lt' (show n < 2 ^ 64 by omega)
  have hsum : (S.t0 + UInt64.ofNat n).toNat = S.t0.toNat + n := by
    rw [UInt64.toNat_add, hn, Nat.mod_eq_of_lt ht]
  refine ⟨hsum, ?_⟩
  show S.t1 + (if S.t0 + UInt64.ofNat n < UInt64.ofNat n then 1 else 0) = S.t1
  rw [if_neg, UInt64.add_zero]
  rw [UInt64.lt_iff_toNat_lt, hsum, hn]
  omega

/-- **A block that is not the last** goes into the chain. -/
theorem BlocksChained.next {S : Blake2b} {msg : Bytes} {k : Nat} (h : BlocksChained S msg k) (p : Bytes)
    (hp : p.take 128 = Rfc7693.block msg k) (hlen : 128 * (k + 1) < 2 ^ 64) :
    BlocksChained (blake2bCompress (blake2bCount S 128) p) msg (k + 1) := by
  have ht := h.t0
  obtain ⟨ht0, ht1⟩ := blake2bCount_eq (S := S) 128 (by omega)
  have hcount : (blake2bCount S 128).t0.toNat + 2 ^ 64 * (blake2bCount S 128).t1.toNat = 128 * (k + 1) := by
    rw [show (128 : UInt64) = UInt64.ofNat 128 from rfl, ht0, ht1, h.t1, ht]
    show 128 * k + 128 + 2 ^ 64 * 0 = _
    omega
  constructor
  case h =>
    rw [blake2bCompress_eq (blake2bCount S 128) p false h.f0 h.f1, hcount, ← words_take, hp]
    show Rfc7693.F S.h _ _ _ = _
    rw [h.h]
    rfl
  case t0 =>
    show (blake2bCount S 128).t0.toNat = _
    rw [show (128 : UInt64) = UInt64.ofNat 128 from rfl, ht0, ht]
    omega
  case t1 => exact ht1.trans h.t1
  case f0 => exact h.f0
  case f1 => exact h.f1
  case outlen => exact h.outlen

/-- The state after a message: the last of its blocks is in the buffer, as far as there is one. -/
structure Absorbed (S : Blake2b) (msg : Bytes) : Prop where
  chained : BlocksChained S msg (lastBlock msg.length)
  buf : S.buf = msg.drop (128 * lastBlock msg.length)

theorem Absorbed.length_buf {S : Blake2b} {msg : Bytes} (h : Absorbed S msg) :
    S.buf.length + 128 * lastBlock msg.length = msg.length := by
  have hle := (lastBlock_bounds msg.length).1
  rw [h.buf, List.length_drop]
  omega

theorem absorbed_init : Absorbed (blake2bInit CAS_HASH_LEN) [] := by
  refine ⟨⟨?_, rfl, rfl, rfl, rfl, rfl⟩, rfl⟩
  show blake2bIv.set 0 (blake2bIv[0] ^^^ (0x01010000 ^^^ UInt64.ofNat CAS_HASH_LEN)) = Rfc7693.start CAS_HASH_LEN
  unfold Rfc7693.start
  rw [UInt64.xor_assoc]
  rfl

/-- **The loop** takes blocks in while another octet comes after them. -/
theorem blake2bBlocks_absorbed (fuel : Nat) (S : Blake2b) (msg p : Bytes) (k : Nat) (h : BlocksChained S msg k)
    (hp : p = msg.drop (128 * k)) (hne : p ≠ []) (hf : p.length ≤ fuel) (hlen : msg.length < 2 ^ 64) :
    Absorbed (blake2bBlocks fuel S p) msg := by
  induction fuel generalizing S p k with
  | zero => exact absurd (List.eq_nil_of_length_eq_zero (by omega)) hne
  | succ fuel ih =>
    have hpos : 0 < p.length := List.length_pos_of_ne_nil hne
    have hplen : p.length = msg.length - 128 * k := by rw [hp, List.length_drop]
    have hblock : BLAKE2B_BLOCKLEN = 128 := rfl
    unfold blake2bBlocks
    by_cases hmore : p.length > BLAKE2B_BLOCKLEN
    · rw [if_pos hmore]
      have hdrop : (p.drop BLAKE2B_BLOCKLEN).length = p.length - 128 := List.length_drop
      refine ih _ (p.drop BLAKE2B_BLOCKLEN) (k + 1) (h.next p ?_ (by omega)) ?_ ?_ (by omega)
      · rw [Rfc7693.block_full msg k (by omega), hp]
      · rw [hp, hblock, List.drop_drop, Nat.mul_succ]
      · apply List.ne_nil_of_length_pos
        omega
    · rw [if_neg hmore]
      have hk : lastBlock msg.length = k := lastBlock_eq (by omega) (by omega)
      exact ⟨hk ▸ h.buffer p, by rw [hk]; exact hp⟩

/-- **An update** takes the message on by its octets. -/
theorem blake2bUpdate_absorbed {S : Blake2b} {msg : Bytes} (h : Absorbed S msg) (data : Bytes)
    (hlen : (msg ++ data).length < 2 ^ 64) : Absorbed (blake2bUpdate S data) (msg ++ data) := by
  have hbuf := h.length_buf
  obtain ⟨hle, hge⟩ := lastBlock_bounds msg.length
  have hblock : BLAKE2B_BLOCKLEN = 128 := rfl
  have htotal : (msg ++ data).length = msg.length + data.length := List.length_append
  have hdrop : (msg ++ data).drop (128 * lastBlock msg.length) = S.buf ++ data := by
    rw [List.drop_append_of_le_length hle, ← h.buf]
  have hchained := h.chained.append hle data
  unfold blake2bUpdate
  by_cases hnil : data.length = 0
  · rw [if_pos hnil, List.eq_nil_of_length_eq_zero hnil, List.append_nil]
    exact h
  · rw [if_neg hnil]
    dsimp only
    by_cases hmore : data.length > BLAKE2B_BLOCKLEN - S.buf.length
    · -- the buffer is filled up, and is not the last block
      rw [if_pos hmore]
      have htake : (S.buf ++ data).take 128 = S.buf ++ data.take (BLAKE2B_BLOCKLEN - S.buf.length) := by
        rw [List.take_append, List.take_of_length_le (by omega), hblock]
      have hfull : Rfc7693.block (msg ++ data) (lastBlock msg.length) = (S.buf ++ data).take 128 := by
        rw [Rfc7693.block_full _ _ (by omega), hdrop]
      have hnext := hchained.next (S.buf ++ data.take (BLAKE2B_BLOCKLEN - S.buf.length))
        (by rw [hfull, ← htake, List.take_take, Nat.min_self]) (by omega)
      have hrest : (data.drop (BLAKE2B_BLOCKLEN - S.buf.length)).length =
          data.length - (BLAKE2B_BLOCKLEN - S.buf.length) := List.length_drop
      apply blake2bBlocks_absorbed _ _ _ _ (lastBlock msg.length + 1) hnext
      · have hover : S.buf.drop 128 = [] := List.drop_of_length_le (by omega)
        rw [Nat.mul_succ, ← List.drop_drop, hdrop, List.drop_append, hover, List.nil_append, hblock]
      · apply List.ne_nil_of_length_pos
        omega
      · omega
      · exact hlen
    · rw [if_neg hmore]
      have hk : lastBlock (msg ++ data).length = lastBlock msg.length := lastBlock_eq (by omega) (by omega)
      refine ⟨?_, ?_⟩
      · rw [hk]
        exact hchained.buffer _
      · rw [hk, hdrop]

/-- The octets of a word. -/
theorem storeLe_eq (n v : Nat) : storeLe n v = (List.range n).map fun i => UInt8.ofNat (v / 256 ^ i % 256) := by
  induction n generalizing v with
  | zero => rfl
  | succ n ih =>
    rw [storeLe, ih, List.range_succ_eq_map, List.map_cons, List.map_map, Nat.pow_zero, Nat.div_one]
    congr 1
    refine List.map_congr_left fun i _ => ?_
    show UInt8.ofNat (v / 256 / 256 ^ i % 256) = UInt8.ofNat (v / 256 ^ (i + 1) % 256)
    rw [Nat.div_div_eq_div_mul, Nat.pow_succ, Nat.mul_comm]

theorem output_eq (h : Vector UInt64 8) (n : Nat) (hn : n ≤ 64) :
    (h.toList.flatMap store64).take n = (List.range n).map (Rfc7693.octet h) := by
  have hlist : h.toList = (List.finRange 8).map fun j => h[j] := by
    apply List.ext_getElem
    · simp
    · intro i hi hi'
      simp
  have hall : h.toList.flatMap store64 = (List.range 64).map (Rfc7693.octet h) := by
    unfold store64
    rw [hlist, List.flatMap_map]
    simp only [storeLe_eq]
    rfl
  rw [hall, ← List.map_take, List.take_range, Nat.min_eq_left hn]

/-- **The last block** is compressed under the flag. -/
theorem blake2bFinal_absorbed {S : Blake2b} {msg : Bytes} (h : Absorbed S msg) (hlen : msg.length < 2 ^ 64) :
    blake2bFinal S = Rfc7693.blake2b CAS_HASH_LEN msg := by
  have hbuf := h.length_buf
  have ht := h.chained.t0
  have hge := (lastBlock_bounds msg.length).2
  obtain ⟨ht0, ht1⟩ := blake2bCount_eq (S := S) S.buf.length (by omega)
  have hcount : (blake2bCount S (UInt64.ofNat S.buf.length)).t0.toNat +
      2 ^ 64 * (blake2bCount S (UInt64.ofNat S.buf.length)).t1.toNat = msg.length := by
    rw [ht0, ht1, h.chained.t1, ht]
    show 128 * lastBlock msg.length + S.buf.length + 2 ^ 64 * 0 = _
    omega
  have hblock : S.buf ++ List.replicate (BLAKE2B_BLOCKLEN - S.buf.length) 0 =
      Rfc7693.block msg (lastBlock msg.length) := by
    have htake : S.buf.take 128 = S.buf := List.take_of_length_le (by omega)
    unfold Rfc7693.block
    rw [← h.buf, htake]
    rfl
  unfold blake2bFinal Rfc7693.blake2b
  dsimp only
  rw [blake2bCompress_eq { blake2bCount S (UInt64.ofNat S.buf.length) with f0 := ~~~0 } _ true rfl h.chained.f1]
  show List.take S.outlen (List.flatMap store64 (Rfc7693.F S.h (Rfc7693.words
    (S.buf ++ List.replicate (BLAKE2B_BLOCKLEN - S.buf.length) 0)) _ true).toList) = _
  rw [hcount, hblock, h.chained.outlen, h.chained.h]
  exact output_eq _ _ (by decide)

/-! ## Streaming -/

theorem updates_absorbed {S : Blake2b} {msg : Bytes} (h : Absorbed S msg) (pieces : List Bytes)
    (hlen : (msg ++ pieces.flatten).length < 2 ^ 64) :
    Absorbed (pieces.foldl blake2bUpdate S) (msg ++ pieces.flatten) := by
  induction pieces generalizing S msg with
  | nil => simpa using h
  | cons piece pieces ih =>
    rw [List.flatten_cons, ← List.append_assoc] at hlen ⊢
    have hpiece : (msg ++ piece).length < 2 ^ 64 := by
      rw [List.length_append] at hlen
      omega
    exact ih (blake2bUpdate_absorbed h piece hpiece) hlen

/-- **However a message is cut into updates, its digest is that of the RFC.** -/
theorem digest_pieces (pieces : List Bytes) (hlen : pieces.flatten.length < 2 ^ 64) :
    blake2bFinal (pieces.foldl blake2bUpdate (blake2bInit CAS_HASH_LEN)) =
      Rfc7693.blake2b CAS_HASH_LEN pieces.flatten := by
  have h := updates_absorbed absorbed_init pieces (by simpa using hlen)
  rw [List.nil_append] at h
  exact blake2bFinal_absorbed h hlen

theorem casDigest_rfc (data : Bytes) (hlen : data.length < 2 ^ 64) :
    casDigest data = Rfc7693.blake2b CAS_HASH_LEN data := by
  have h := digest_pieces [data] (by simpa using hlen)
  rwa [List.flatten_singleton] at h

theorem digest2_rfc (hdr data : Bytes) (hlen : (hdr ++ data).length < 2 ^ 64) :
    digest2 hdr data = Rfc7693.blake2b CAS_HASH_LEN (hdr ++ data) := by
  have heq : [hdr, data].flatten = hdr ++ data := by simp
  have h := digest_pieces [hdr, data] (by rw [heq]; exact hlen)
  rwa [heq] at h

/-- An object's address is that of its header and its data in one. -/
theorem casHashObject_rfc {type : CStr} {data hdr : Bytes} (h : formatHeader type data.length = some hdr)
    (hlen : (hdr ++ data).length < 2 ^ 64) :
    casHashObject type data = .ok (toHex (casDigest (hdr ++ data))) ∧
      casDigest (hdr ++ data) = Rfc7693.blake2b CAS_HASH_LEN (hdr ++ data) := by
  have hone := casDigest_rfc (hdr ++ data) hlen
  unfold casHashObject
  rw [h]
  dsimp only
  rw [digest2_rfc hdr data hlen, hone]
  exact ⟨rfl, rfl⟩

/-- **Streaming BLAKE2b equals the specification**: for every way to cut a message into updates, and so for an
object's header and data. -/
theorem streaming_meets_rfc :
    (∀ pieces : List Bytes, pieces.flatten.length < 2 ^ 64 →
      blake2bFinal (pieces.foldl blake2bUpdate (blake2bInit CAS_HASH_LEN)) =
        Rfc7693.blake2b CAS_HASH_LEN pieces.flatten) ∧
    (∀ pieces pieces' : List Bytes, pieces.flatten.length < 2 ^ 64 → pieces'.flatten = pieces.flatten →
      blake2bFinal (pieces'.foldl blake2bUpdate (blake2bInit CAS_HASH_LEN)) =
        blake2bFinal (pieces.foldl blake2bUpdate (blake2bInit CAS_HASH_LEN))) ∧
    (∀ (type : CStr) (data hdr : Bytes), formatHeader type data.length = some hdr → (hdr ++ data).length < 2 ^ 64 →
      casHashObject type data = .ok (toHex (casDigest (hdr ++ data))) ∧
        casDigest (hdr ++ data) = Rfc7693.blake2b CAS_HASH_LEN (hdr ++ data)) := by
  refine ⟨digest_pieces, ?_, fun type data hdr h hlen => casHashObject_rfc h hlen⟩
  intro pieces pieces' hlen hsame
  rw [digest_pieces pieces hlen, digest_pieces pieces' (by rw [hsame]; exact hlen), hsame]

theorem streaming_meets_rfc_abc :
    blake2bFinal ([[0x61], [], [0x62, 0x63]].foldl blake2bUpdate (blake2bInit CAS_HASH_LEN)) =
        Rfc7693.blake2b CAS_HASH_LEN [0x61, 0x62, 0x63] ∧
      blake2bFinal ([[0x61, 0x62], [0x63]].foldl blake2bUpdate (blake2bInit CAS_HASH_LEN)) =
        blake2bFinal ([[0x61], [], [0x62, 0x63]].foldl blake2bUpdate (blake2bInit CAS_HASH_LEN)) ∧
      casHashObject tBlob [0x61] = .ok (toHex (casDigest (tBlob.bytes ++ [32, 49, 0] ++ [0x61]))) :=
  ⟨streaming_meets_rfc.1 [[0x61], [], [0x62, 0x63]] (by decide),
    streaming_meets_rfc.2.1 [[0x61], [], [0x62, 0x63]] [[0x61, 0x62], [0x63]] (by decide) (by decide),
    (streaming_meets_rfc.2.2 tBlob [0x61] (tBlob.bytes ++ [32, 49, 0]) (by decide) (by decide)).1⟩

end Smolvfs
