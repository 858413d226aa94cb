import Smolvfs.Topic

/-!
# The form of version records

`cas_vrec_encode` against `cas_vrec_decode` and `cas_vrec_succeeds` of `cas-sign.c`,
over a signing backend.

* `casVrecEncode_decoded`: what is decoded from a record signs the same 152 octets.
* `decoded_eq_iff`: two records that decode have the same fields exactly when they have
  the same 152 octets.
* `vrec_one_form`: a record has one encoding, and two records of a topic at one sequence
  number are the same statement or a fork.
-/

namespace Smolvfs

open Octets

/-- A signing backend: the public key of a secret one, its signature of a message, and the check of one. -/
structure SignBackend where
  pubkey : Bytes → Bytes
  sign : Bytes → Bytes → Bytes
  check : SigCheck

/-- It checks the signatures it makes, and only those. -/
structure SignBackend.Checks (b : SignBackend) : Prop where
  length_pubkey : ∀ sk, (b.pubkey sk).length = 32
  length_sign : ∀ sk msg, (b.sign sk msg).length = 64
  check_iff : ∀ sk msg sig, b.check sig (b.pubkey sk) msg = true ↔ sig = b.sign sk msg

/-- The record as it is decoded: its topic is its key's, and its addresses are in lower case. -/
def Vrec.lowered (v : Vrec) : Vrec :=
  { v with topicId := casSignTopicId v.pubkey, root := v.root.map lowerDigit, prev := v.prev.map lowerDigit }

/-- A predecessor is absent, or an address other than zero. -/
def PrevOk (prev : Bytes) : Prop :=
  prev = [] ∨ validHash prev = true ∧ casHexDecode prev ≠ some (List.replicate CAS_HASH_LEN 0)

/-! ## Encoding -/

section
variable (sign : Bytes → Bytes) (v : Vrec) (hroot : validHash v.root = true)
include hroot

/-- What is encoded of a record without a predecessor. -/
theorem casVrecEncode_first (hprev : v.prev = []) :
    ∃ root, casHexDecode v.root = some root ∧ root.length = CAS_HASH_LEN ∧
      casVrecEncode sign v = .ok (vrecSigned v root (List.replicate CAS_HASH_LEN 0) ++
        sign (vrecSigned v root (List.replicate CAS_HASH_LEN 0))) := by
  obtain ⟨root, hr, hlen⟩ := casHexDecode_of_valid v.root hroot
  refine ⟨root, hr, hlen, ?_⟩
  unfold casVrecEncode
  rw [if_neg (by simp [hroot]), if_neg (by simp [hprev]), hr, if_pos hprev]

/-- And with one. -/
theorem casVrecEncode_linked (hprev : validHash v.prev = true) :
    ∃ root prev, casHexDecode v.root = some root ∧ root.length = CAS_HASH_LEN ∧
      casHexDecode v.prev = some prev ∧ prev.length = CAS_HASH_LEN ∧
      casVrecEncode sign v = .ok (vrecSigned v root prev ++ sign (vrecSigned v root prev)) := by
  obtain ⟨root, hr, hlen⟩ := casHexDecode_of_valid v.root hroot
  obtain ⟨prev, hp, hplen⟩ := casHexDecode_of_valid v.prev hprev
  refine ⟨root, prev, hr, hlen, hp, hplen, ?_⟩
  have hne : v.prev ≠ [] := by
    intro h
    rw [h] at hprev
    cases hprev
  unfold casVrecEncode
  rw [if_neg (by simp [hroot]), if_neg (by simp [hprev]), hr, if_neg hne, hp]

end

/-- The octets that are signed decode to the fields they were made of. -/
theorem casVrecDecode_signed (check : SigCheck) (v : Vrec) (root prev sig : Bytes) (hpk : v.pubkey.length = 32)
    (hroot : root.length = CAS_HASH_LEN) (hprev : prev.length = CAS_HASH_LEN) (hsig : sig.length = 64)
    (hcheck : check sig v.pubkey (vrecSigned v root prev) = true) :
    casVrecDecode check (vrecSigned v root prev ++ sig) =
      .ok { v with
        topicId := casSignTopicId v.pubkey
        root := toHex root
        prev := if prev = List.replicate CAS_HASH_LEN 0 then [] else toHex prev } := by
  obtain ⟨h1, h2, h3, h4, h5, h6, h7, h8, h9, h10, h11⟩ := vrecSigned_fields v root prev hpk hroot hprev sig hsig
  unfold casVrecDecode
  rw [if_neg (by simp [h1]), if_neg (by simp [h2]), if_neg (by simp [h3]), h4, h5, h10, h11, if_neg (by simp),
    if_neg (by simp [hcheck])]
  unfold vrecFields
  rw [h4, h5, h8, h9, loadLe64_drop _ _ _ h6, loadLe64_drop _ _ _ h7]

/-- **A record comes back** as it was, in lower case. -/
theorem casVrecDecode_encoded (b : SignBackend) (hb : b.Checks) (sk : Bytes) (v : Vrec) (hpk : v.pubkey = b.pubkey sk)
    (hroot : validHash v.root = true) (hprev : PrevOk v.prev) :
    ∃ rec, casVrecEncode (b.sign sk) v = .ok rec ∧ casVrecDecode b.check rec = .ok v.lowered := by
  have hlen : v.pubkey.length = 32 := by rw [hpk, hb.length_pubkey]
  have hcheck : ∀ msg, b.check (b.sign sk msg) v.pubkey msg = true := fun msg => by rw [hpk, hb.check_iff]
  rcases hprev with hnil | ⟨hvalid, hzero⟩
  · obtain ⟨root, hr, hrlen, henc⟩ := casVrecEncode_first (b.sign sk) v hroot hnil
    refine ⟨_, henc, ?_⟩
    rw [casVrecDecode_signed b.check v root _ _ hlen hrlen (by simp) (hb.length_sign ..) (hcheck _), if_pos rfl,
      toHex_casHexDecode v.root root hr]
    unfold Vrec.lowered
    rw [hnil, List.map_nil]
  · obtain ⟨root, prev, hr, hrlen, hp, hplen, henc⟩ := casVrecEncode_linked (b.sign sk) v hroot hvalid
    refine ⟨_, henc, ?_⟩
    have hne : prev ≠ List.replicate CAS_HASH_LEN 0 := fun h => hzero (h ▸ hp)
    rw [casVrecDecode_signed b.check v root prev _ hlen hrlen hplen (hb.length_sign ..) (hcheck _), if_neg hne,
      toHex_casHexDecode v.root root hr, toHex_casHexDecode v.prev prev hp]
    rfl

/-! ## Decoding -/

/-- What a record that decodes went through. -/
structure VrecDecoded (check : SigCheck) (buf : Bytes) (v : Vrec) : Prop where
  length : buf.length = CAS_VREC_LEN
  magic : slice buf 0 4 = VREC_MAGIC
  reserved : slice buf VREC_OFF_RESERVED 4 = [0, 0, 0, 0]
  bound : casSignTopicId (slice buf VREC_OFF_PUBKEY 32) = slice buf VREC_OFF_TOPIC CAS_HASH_LEN
  signed : check (slice buf VREC_OFF_SIG 64) (slice buf VREC_OFF_PUBKEY 32) (slice buf 0 CAS_VREC_SIGNED_LEN) = true
  fields : v = vrecFields buf

theorem casVrecDecode_ok (check : SigCheck) (buf : Bytes) (v : Vrec) (h : casVrecDecode check buf = .ok v) :
    VrecDecoded check buf v := by
  unfold casVrecDecode at h
  split at h
  · cases h
  · next hlen =>
    split at h
    · cases h
    · next hmagic =>
      split at h
      · cases h
      · next hres =>
        split at h
        · cases h
        · next hbind =>
          split at h
          · cases h
          · next hsig =>
            exact ⟨not_not.mp hlen, not_not.mp hmagic, not_not.mp hres, not_not.mp hbind, by simpa using hsig,
              (Except.ok.inj h).symm⟩

theorem storeLe64_slice (buf : Bytes) (off : Nat) (h : off + 8 ≤ buf.length) :
    storeLe64 (loadLe64 (buf.drop off)) = slice buf off 8 := by
  have hlen := length_slice buf off 8 h
  have hlt := loadLe_lt (slice buf off 8)
  have hslice : slice (buf.drop off) 0 8 = slice buf off 8 := by
    unfold slice
    rw [List.drop_zero]
  unfold storeLe64 loadLe64
  rw [hlen] at hlt
  rw [hslice, BitVec.toNat_ofNat, Nat.mod_eq_of_lt (by simpa using hlt)]
  calc storeLe 8 (loadLe (slice buf off 8))
      = storeLe (slice buf off 8).length (loadLe (slice buf off 8)) := by rw [hlen]
    _ = slice buf off 8 := storeLe_loadLe _

/-- The octets that are signed, from the fields that are read of them. -/
theorem vrecSigned_decoded (check : SigCheck) (buf : Bytes) (v : Vrec) (h : VrecDecoded check buf v) :
    vrecSigned v (slice buf VREC_OFF_ROOT CAS_HASH_LEN) (slice buf VREC_OFF_PREV CAS_HASH_LEN) =
      slice buf 0 CAS_VREC_SIGNED_LEN := by
  have hlen : buf.length = 216 := h.length
  have hseq := storeLe64_slice buf VREC_OFF_SEQ (by rw [hlen]; decide)
  have htime := storeLe64_slice buf VREC_OFF_TIME (by rw [hlen]; decide)
  have hparts : slice buf 0 CAS_VREC_SIGNED_LEN =
      slice buf 0 4 ++ (slice buf 4 4 ++ (slice buf 8 32 ++ (slice buf 40 32 ++ (slice buf 72 8 ++
        (slice buf 80 8 ++ (slice buf 88 32 ++ slice buf 120 32)))))) := by
    rw [← slice_add buf 88, ← slice_add buf 80, ← slice_add buf 72, ← slice_add buf 40, ← slice_add buf 8,
      ← slice_add buf 4, ← slice_add buf 0]
    rfl
  have hmagic := h.magic
  have hres : slice buf 4 4 = [0, 0, 0, 0] := h.reserved
  have hbound : casSignTopicId (slice buf 40 32) = slice buf 8 32 := h.bound
  rw [h.fields, hparts]
  unfold vrecSigned vrecFields
  dsimp only
  rw [hseq, htime, ← hmagic, ← hres]
  show _ ++ (_ ++ (casSignTopicId (slice buf 40 32) ++ _)) = _
  rw [hbound]
  rfl

theorem vrecFields_valid (buf : Bytes) (h : buf.length = CAS_VREC_LEN) :
    validHash (vrecFields buf).root = true ∧ (slice buf VREC_OFF_ROOT CAS_HASH_LEN).length = CAS_HASH_LEN ∧
      (slice buf VREC_OFF_PREV CAS_HASH_LEN).length = CAS_HASH_LEN := by
  have hlen : buf.length = 216 := h
  have hroot := length_slice buf VREC_OFF_ROOT CAS_HASH_LEN (by rw [hlen]; decide)
  have hprev := length_slice buf VREC_OFF_PREV CAS_HASH_LEN (by rw [hlen]; decide)
  exact ⟨(lowerHash_toHex _ hroot).valid, hroot, hprev⟩

/-- **What is decoded signs the same octets**, whatever signs it. -/
theorem casVrecEncode_decoded (check : SigCheck) (sign : Bytes → Bytes) (buf : Bytes) (v : Vrec)
    (h : casVrecDecode check buf = .ok v) :
    casVrecEncode sign v = .ok (slice buf 0 CAS_VREC_SIGNED_LEN ++ sign (slice buf 0 CAS_VREC_SIGNED_LEN)) := by
  have hdec := casVrecDecode_ok check buf v h
  obtain ⟨hroot, -, hplen⟩ := vrecFields_valid buf hdec.length
  rw [← vrecSigned_decoded check buf v hdec]
  have hv := hdec.fields
  subst hv
  by_cases hzero : slice buf VREC_OFF_PREV CAS_HASH_LEN = List.replicate CAS_HASH_LEN 0
  · obtain ⟨root, hr, -, henc⟩ := casVrecEncode_first sign (vrecFields buf) hroot (if_pos hzero)
    obtain rfl := Option.some.inj ((casHexDecode_toHex _).symm.trans hr)
    rw [henc, hzero]
  · have hprev : (vrecFields buf).prev = toHex (slice buf VREC_OFF_PREV CAS_HASH_LEN) := if_neg hzero
    obtain ⟨root, prev, hr, -, hp, -, henc⟩ := casVrecEncode_linked sign (vrecFields buf) hroot
      (hprev ▸ (lowerHash_toHex _ hplen).valid)
    obtain rfl := Option.some.inj ((casHexDecode_toHex _).symm.trans hr)
    rw [hprev, casHexDecode_toHex] at hp
    obtain rfl := Option.some.inj hp
    exact henc

theorem vrecFields_congr (buf buf' : Bytes)
    (h : slice buf 0 CAS_VREC_SIGNED_LEN = slice buf' 0 CAS_VREC_SIGNED_LEN) : vrecFields buf = vrecFields buf' := by
  have hpart : ∀ off n, off + n ≤ CAS_VREC_SIGNED_LEN → slice buf off n = slice buf' off n := by
    intro off n hle
    have hb := slice_slice buf 0 CAS_VREC_SIGNED_LEN off n hle
    have hb' := slice_slice buf' 0 CAS_VREC_SIGNED_LEN off n hle
    rw [Nat.zero_add] at hb hb'
    rw [← hb, ← hb', h]
  have hnum : ∀ off, off + 8 ≤ CAS_VREC_SIGNED_LEN → loadLe64 (buf.drop off) = loadLe64 (buf'.drop off) := by
    intro off hle
    have := hpart off 8 hle
    unfold slice at this
    unfold loadLe64 slice
    rw [List.drop_zero, List.drop_zero, this]
  unfold vrecFields
  rw [hpart VREC_OFF_TOPIC CAS_HASH_LEN (by decide), hpart VREC_OFF_PUBKEY 32 (by decide),
    hpart VREC_OFF_ROOT CAS_HASH_LEN (by decide), hpart VREC_OFF_PREV CAS_HASH_LEN (by decide),
    hnum VREC_OFF_SEQ (by decide), hnum VREC_OFF_TIME (by decide)]

/-- **The fields are the octets that are signed.** -/
theorem decoded_eq_iff (check : SigCheck) (buf buf' : Bytes) (v v' : Vrec) (h : casVrecDecode check buf = .ok v)
    (h' : casVrecDecode check buf' = .ok v') :
    v = v' ↔ slice buf 0 CAS_VREC_SIGNED_LEN = slice buf' 0 CAS_VREC_SIGNED_LEN := by
  constructor
  · rintro rfl
    have hsame := (casVrecEncode_decoded check (fun _ => []) buf v h).symm.trans
      (casVrecEncode_decoded check (fun _ => []) buf' v h')
    rw [List.append_nil, List.append_nil] at hsame
    exact Except.ok.inj hsame
  · intro hsame
    rw [(casVrecDecode_ok check buf v h).fields, (casVrecDecode_ok check buf' v' h').fields]
    exact vrecFields_congr buf buf' hsame

/-! ## Two records at one number -/

/-- The topic of a record that decodes is its key's. -/
theorem topicId_decoded (check : SigCheck) (buf : Bytes) (v : Vrec) (h : casVrecDecode check buf = .ok v) :
    v.topicId = casSignTopicId v.pubkey := by
  have hdec := casVrecDecode_ok check buf v h
  rw [hdec.fields]
  exact hdec.bound.symm

/-- **At one sequence number of a topic** a record is the head's statement, or a fork. -/
theorem casVrecSucceeds_same_seq (check : SigCheck) (buf buf' addr : Bytes) (v v' : Vrec)
    (h : casVrecDecode check buf = .ok v) (h' : casVrecDecode check buf' = .ok v') (htopic : v.topicId = v'.topicId)
    (hkey : casSignTopicId v.pubkey = casSignTopicId v'.pubkey → v.pubkey = v'.pubkey) (hseq : v.seq = v'.seq) :
    casVrecSucceeds (some (v, addr)) v' =
      if slice buf 0 CAS_VREC_SIGNED_LEN = slice buf' 0 CAS_VREC_SIGNED_LEN then .estale else .efork := by
  have hpub : v.pubkey = v'.pubkey := by
    apply hkey
    rw [← topicId_decoded check buf v h, ← topicId_decoded check buf' v' h', htopic]
  have hsame : v = v' ↔ v'.root = v.root ∧ v'.prev = v.prev ∧ v'.timestamp = v.timestamp := by
    constructor
    · rintro rfl
      exact ⟨rfl, rfl, rfl⟩
    · rintro ⟨hroot, hprev, htime⟩
      cases v
      cases v'
      simp_all
  unfold casVrecSucceeds
  dsimp only
  rw [if_neg (by simp [htopic]), if_neg (by rw [hseq]; exact BitVec.lt_irrefl _), if_pos hseq.symm]
  simp only [← hsame, decoded_eq_iff check buf buf' v v' h h']

/-- What is said of the form of records. -/
structure VrecForm (b : SignBackend) : Prop where
  /-- A record comes back as it was, in lower case. -/
  roundTrip : ∀ sk v, v.pubkey = b.pubkey sk → validHash v.root = true → PrevOk v.prev →
    ∃ rec, casVrecEncode (b.sign sk) v = .ok rec ∧ casVrecDecode b.check rec = .ok v.lowered
  /-- What is accepted is what its fields are encoded as. -/
  canonical : ∀ sk buf v, casVrecDecode b.check buf = .ok v →
    ∃ rec, casVrecEncode (b.sign sk) v = .ok rec ∧
      slice rec 0 CAS_VREC_SIGNED_LEN = slice buf 0 CAS_VREC_SIGNED_LEN
  /-- Two statements of one topic at one number are a fork. -/
  fork : ∀ buf buf' addr v v', casVrecDecode b.check buf = .ok v → casVrecDecode b.check buf' = .ok v' →
    (casSignTopicId v.pubkey = casSignTopicId v'.pubkey → v.pubkey = v'.pubkey) → v.topicId = v'.topicId →
    v.seq = v'.seq → casVrecSucceeds (some (v, addr)) v' =
      if slice buf 0 CAS_VREC_SIGNED_LEN = slice buf' 0 CAS_VREC_SIGNED_LEN then .estale else .efork

/-- **Version records have one form**, and the succession rules tell every two of them apart. -/
theorem vrec_one_form (b : SignBackend) (hb : b.Checks) : VrecForm b := by
  constructor
  case roundTrip => exact fun sk v hpk hroot hprev => casVrecDecode_encoded b hb sk v hpk hroot hprev
  case canonical =>
    intro sk buf v h
    refine ⟨_, casVrecEncode_decoded b.check (b.sign sk) buf v h, ?_⟩
    have hlen : buf.length = 216 := (casVrecDecode_ok b.check buf v h).length
    exact slice_front _ _ _ (length_slice buf 0 CAS_VREC_SIGNED_LEN (by rw [hlen]; decide)).symm
  case fork =>
    exact fun buf buf' addr v v' h h' hkey htopic hseq =>
      casVrecSucceeds_same_seq b.check buf buf' addr v v' h h' htopic hkey hseq

/-- A backend whose signatures are digests of the message and the key. -/
def digestBackend : SignBackend where
  pubkey sk := casDigest sk
  sign sk msg := casDigest msg ++ casDigest (casDigest sk)
  check sig pk msg := sig == casDigest msg ++ casDigest pk

theorem digestBackend_checks : digestBackend.Checks := by
  constructor
  case length_pubkey => exact fun sk => length_casDigest sk
  case length_sign =>
    intro sk msg
    unfold digestBackend
    rw [List.length_append, length_casDigest, length_casDigest]
    rfl
  case check_iff => exact fun sk msg sig => beq_iff_eq

/-- The first record of a topic, for a root of one hex digit over and over. -/
def openingVrec (digit : UInt8) : Vrec where
  topicId := []
  pubkey := digestBackend.pubkey []
  seq := 1
  timestamp := 0
  root := List.replicate CAS_HASH_HEX digit
  prev := []

/-- Two first records of one key, for two roots, are a fork. -/
theorem vrec_one_form_two_roots : ∃ rec rec',
    casVrecEncode (digestBackend.sign []) (openingVrec 65) = .ok rec ∧
    casVrecDecode digestBackend.check rec = .ok (openingVrec 65).lowered ∧
    casVrecEncode (digestBackend.sign []) (openingVrec 98) = .ok rec' ∧
    casVrecDecode digestBackend.check rec' = .ok (openingVrec 98).lowered ∧
    casVrecSucceeds (some ((openingVrec 65).lowered, [])) (openingVrec 98).lowered = .efork := by
  have hform := vrec_one_form digestBackend digestBackend_checks
  obtain ⟨rec, henc, hdec⟩ := hform.roundTrip [] (openingVrec 65) rfl (by decide) (Or.inl rfl)
  obtain ⟨rec', henc', hdec'⟩ := hform.roundTrip [] (openingVrec 98) rfl (by decide) (Or.inl rfl)
  refine ⟨rec, rec', henc, hdec, henc', hdec', ?_⟩
  have hroot : (openingVrec 65).lowered.root ≠ (openingVrec 98).lowered.root := by decide
  rw [hform.fork rec rec' [] _ _ hdec hdec' (fun _ => rfl) rfl rfl, if_neg]
  rw [← decoded_eq_iff digestBackend.check rec rec' _ _ hdec hdec']
  exact fun h => hroot (congrArg Vrec.root h)

end Smolvfs
