import Smolvfs.RefRuns

/-!
# Signed topics

A topic is a ref that names a version record, a signed object of 216 octets with
a sequence number and the address of its predecessor.  `cas_vrec_decode`,
`cas_vrec_succeeds`, `cas_topic_head` and `cas_topic_publish` of `cas-sign.c` and
`cas-topic.c`; the check of a signature is a parameter.

`publish_no_rollback_iff`: a publish moves the ref only to a record that succeeds
the one the ref named exactly when that one is not missing from the depot.  A
missing head is `CAS_ENOTFOUND`, as a topic without a ref is.  The names of topics
are told apart by their identity and label (`casTopicRefName_inj`).
-/

namespace Smolvfs

open Octets

/-! ## Naming -/

def CAS_TOPIC_LABEL_MAX : Nat := 64

/-- `label_ok` -/
def labelOk (label : Bytes) : Bool :=
  if label.length = 0 ∨ label.length > CAS_TOPIC_LABEL_MAX then false
  else if label.head? = some 46 ∨ label.head? = some 45 then false
  else
    label.all fun c =>
      decide (65 ≤ c.toNat ∧ c.toNat ≤ 90) || decide (97 ≤ c.toNat ∧ c.toNat ≤ 122) ||
        decide (48 ≤ c.toNat ∧ c.toNat ≤ 57) || c == 46 || c == 95 || c == 45

/-- `cas_topic_ref_name` into a buffer of `outsz` octets; no label is an empty one. -/
def casTopicRefName (outsz : Nat) (topicId label : Bytes) : Except Status Bytes :=
  let hex := toHex topicId
  if label ≠ [] ∧ labelOk label = false then .error .err
  else
    let name := if label = [] then hex else hex ++ 45 :: label
    if name.length ≥ outsz then .error .err else .ok name

section
variable (outsz : Nat) (topicId label name : Bytes)

theorem casTopicRefName_ok (h : casTopicRefName outsz topicId label = .ok name) :
    (label = [] ∨ labelOk label = true) ∧ name = toHex topicId ++ if label = [] then [] else 45 :: label := by
  unfold casTopicRefName at h
  simp only [] at h
  by_cases hnil : label = []
  · rw [if_neg (by simp [hnil]), if_pos hnil] at h
    split at h
    · cases h
    · exact ⟨.inl hnil, by rw [← Except.ok.inj h, if_pos hnil, List.append_nil]⟩
  · rw [if_neg hnil] at h
    split at h
    · cases h
    · next hl =>
      split at h
      · cases h
      · exact ⟨.inr (by simpa [hnil] using hl), by rw [← Except.ok.inj h, if_neg hnil]⟩

/-- An octet of a ref name. -/
def RefNameOctet (c : UInt8) : Prop := 0x20 ≤ c.toNat ∧ c ≠ 47 ∧ c ≠ 92

theorem refNameOctet_of_lower (c : UInt8) (h : isLowerHex c = true) : RefNameOctet c := by
  unfold isLowerHex at h
  simp only [Bool.or_eq_true, Bool.and_eq_true, decide_eq_true_eq] at h
  refine ⟨by omega, ?_, ?_⟩
  · rintro rfl
    revert h
    decide
  · rintro rfl
    revert h
    decide

/-- A label has no octet a ref name may not have. -/
theorem labelOk_spec (h : labelOk label = true) : label.length ≤ CAS_TOPIC_LABEL_MAX ∧ ∀ c ∈ label, RefNameOctet c := by
  unfold labelOk at h
  split at h
  · cases h
  · next hlen =>
    split at h
    · cases h
    · refine ⟨by omega, fun c hc => ?_⟩
      have hcl := List.all_eq_true.mp h c hc
      simp only [Bool.or_eq_true, decide_eq_true_eq, beq_iff_eq] at hcl
      refine ⟨?_, ?_, ?_⟩
      · rcases hcl with ((((h | h) | h) | rfl) | rfl) | rfl
        · omega
        · omega
        · omega
        · decide
        · decide
        · decide
      · rintro rfl
        revert hcl
        decide
      · rintro rfl
        revert hcl
        decide

/-- **The name of a topic is a ref name.** -/
theorem validRefName_topic (ht : topicId.length = CAS_HASH_LEN) (h : casTopicRefName outsz topicId label = .ok name) :
    validRefName name = true := by
  obtain ⟨hl, rfl⟩ := casTopicRefName_ok outsz topicId label name h
  have hhex : (toHex topicId).length = 64 := by rw [length_toHex, ht]; rfl
  have hlen : (if label = [] then ([] : Bytes) else 45 :: label).length ≤ 65 := by
    split
    · simp
    · next hne =>
      have := (labelOk_spec label (hl.resolve_left hne)).1
      unfold CAS_TOPIC_LABEL_MAX at this
      rw [List.length_cons]
      omega
  unfold validRefName
  simp only [List.length_append, hhex, Bool.and_eq_true, decide_eq_true_eq, List.all_eq_true]
  refine ⟨⟨⟨⟨by omega, by omega⟩, ?_⟩, ?_⟩, ?_⟩
  · intro heq
    have := congrArg List.length heq
    rw [List.length_append, hhex, List.length_singleton] at this
    omega
  · intro heq
    have := congrArg List.length heq
    rw [List.length_append, hhex, List.length_cons, List.length_singleton] at this
    omega
  · intro c hc
    have hoct : RefNameOctet c := by
      rcases List.mem_append.mp hc with hc | hc
      · exact refNameOctet_of_lower c (toHex_lower _ c hc)
      · split at hc
        · cases hc
        · next hne =>
          rcases List.mem_cons.mp hc with rfl | hc
          · exact ⟨by decide, by decide, by decide⟩
          · exact (labelOk_spec label (hl.resolve_left hne)).2 c hc
    simp [hoct.2.1, hoct.2.2, hoct.1]

/-- **No two topics share a name.** -/
theorem casTopicRefName_inj (outsz' : Nat) (topicId' label' : Bytes) (ht : topicId.length = CAS_HASH_LEN)
    (ht' : topicId'.length = CAS_HASH_LEN) (h : casTopicRefName outsz topicId label = .ok name)
    (h' : casTopicRefName outsz' topicId' label' = .ok name) : topicId = topicId' ∧ label = label' := by
  obtain ⟨-, hn⟩ := casTopicRefName_ok outsz topicId label name h
  obtain ⟨-, hn'⟩ := casTopicRefName_ok outsz' topicId' label' name h'
  obtain ⟨hhex, htail⟩ := List.append_inj (hn.symm.trans hn') (by rw [length_toHex, length_toHex, ht, ht'])
  refine ⟨toHex_injective _ _ hhex, ?_⟩
  split at htail
  · next hnil =>
    split at htail
    · next hnil' => rw [hnil, hnil']
    · cases htail
  · split at htail
    · cases htail
    · exact (List.cons.inj htail).2

end

/-! ## Records -/

/-- The codes of `cas-sign.h` a publish can return, with those of `cas.h`. -/
inductive SignStatus
  | cas (rc : Status)
  | ebadform | ebadbind | ebadsig | etopic | estale | efork | echain | egap
  deriving DecidableEq, Repr

def CAS_VREC_LEN : Nat := 216
def CAS_VREC_SIGNED_LEN : Nat := 152
def VREC_MAGIC : Bytes := (lit ['V', 'R', 'v', '1']).bytes
def VREC_OFF_RESERVED : Nat := 4
def VREC_OFF_TOPIC : Nat := 8
def VREC_OFF_PUBKEY : Nat := 40
def VREC_OFF_SEQ : Nat := 72
def VREC_OFF_TIME : Nat := 80
def VREC_OFF_ROOT : Nat := 88
def VREC_OFF_PREV : Nat := 120
def VREC_OFF_SIG : Nat := 152

/-- `CAS_VREC_TYPE` -/
def tVrec : CStr := lit ['v', 'r', 'e', 'c']

/-- `struct cas_vrec`; `prev` is empty where there is no predecessor. -/
structure Vrec where
  topicId : Bytes
  pubkey : Bytes
  seq : BitVec 64
  timestamp : BitVec 64
  root : Bytes
  prev : Bytes
  deriving DecidableEq

/-- The check of a signature by a key on a message. -/
abbrev SigCheck := Bytes → Bytes → Bytes → Bool

/-- `cas_sign_topic_id` -/
def casSignTopicId (pk : Bytes) : Bytes := casDigest pk

/-- `load_le64` -/
def loadLe64 (p : Bytes) : BitVec 64 := BitVec.ofNat 64 (loadLe (slice p 0 8))

/-- The fields of a record. -/
def vrecFields (buf : Bytes) : Vrec where
  topicId := slice buf VREC_OFF_TOPIC CAS_HASH_LEN
  pubkey := slice buf VREC_OFF_PUBKEY 32
  seq := loadLe64 (buf.drop VREC_OFF_SEQ)
  timestamp := loadLe64 (buf.drop VREC_OFF_TIME)
  root := toHex (slice buf VREC_OFF_ROOT CAS_HASH_LEN)
  prev :=
    if slice buf VREC_OFF_PREV CAS_HASH_LEN = List.replicate CAS_HASH_LEN 0 then []
    else toHex (slice buf VREC_OFF_PREV CAS_HASH_LEN)

/-- `cas_vrec_decode` -/
def casVrecDecode (check : SigCheck) (buf : Bytes) : Except SignStatus Vrec :=
  if buf.length ≠ CAS_VREC_LEN then .error .ebadform
  else if slice buf 0 4 ≠ VREC_MAGIC then .error .ebadform
  else if slice buf VREC_OFF_RESERVED 4 ≠ [0, 0, 0, 0] then .error .ebadform
  else if casSignTopicId (slice buf VREC_OFF_PUBKEY 32) ≠ slice buf VREC_OFF_TOPIC CAS_HASH_LEN then .error .ebadbind
  else if check (slice buf VREC_OFF_SIG 64) (slice buf VREC_OFF_PUBKEY 32)
      (slice buf 0 CAS_VREC_SIGNED_LEN) = false then .error .ebadsig
  else .ok (vrecFields buf)

/-- `store_le64` -/
def storeLe64 (v : BitVec 64) : Bytes := storeLe 8 v.toNat

/-- What a record's signature is of. -/
def vrecSigned (v : Vrec) (root prev : Bytes) : Bytes :=
  VREC_MAGIC ++ ([0, 0, 0, 0] ++ (casSignTopicId v.pubkey ++ (v.pubkey ++ (storeLe64 v.seq ++
    (storeLe64 v.timestamp ++ (root ++ prev))))))

/-- `cas_vrec_encode`, with the backend's signature of a message by the secret key. -/
def casVrecEncode (sign : Bytes → Bytes) (v : Vrec) : Except Status Bytes :=
  if validHash v.root = false then .error .err
  else if v.prev ≠ [] ∧ validHash v.prev = false then .error .err
  else
    match casHexDecode v.root, (if v.prev = [] then some (List.replicate CAS_HASH_LEN 0) else casHexDecode v.prev) with
    | some root, some prev => .ok (vrecSigned v root prev ++ sign (vrecSigned v root prev))
    | _, _ => .error .err

/-- `cas_vrec_address` -/
def casVrecAddress (rec : Bytes) : Except Status Bytes := casHashObject tVrec rec

/-- `cas_vrec_succeeds`, on the head with its address, if there is one. -/
def casVrecSucceeds (cur : Option (Vrec × Bytes)) (cand : Vrec) : SignStatus :=
  match cur with
  | none => .cas .ok
  | some (cur, addr) =>
    if cur.topicId ≠ cand.topicId then .etopic
    else if cand.seq < cur.seq then .estale
    else if cand.seq = cur.seq then
      if cand.root = cur.root ∧ cand.prev = cur.prev ∧ cand.timestamp = cur.timestamp then .estale else .efork
    else if cand.seq = cur.seq + 1 then
      if cand.prev ≠ addr then .echain else .cas .ok
    else .egap

section
variable (check : SigCheck) (sign : Bytes → Bytes) (v : Vrec) (root prev : Bytes)

/-- The fields of a record stand where the decoder looks for them. -/
theorem vrecSigned_fields (hpk : v.pubkey.length = 32) (hroot : root.length = CAS_HASH_LEN)
    (hprev : prev.length = CAS_HASH_LEN) (sig : Bytes) (hsig : sig.length = 64) :
    let buf := vrecSigned v root prev ++ sig
    buf.length = CAS_VREC_LEN ∧ slice buf 0 4 = VREC_MAGIC ∧ slice buf VREC_OFF_RESERVED 4 = [0, 0, 0, 0] ∧
      slice buf VREC_OFF_TOPIC CAS_HASH_LEN = casSignTopicId v.pubkey ∧ slice buf VREC_OFF_PUBKEY 32 = v.pubkey ∧
      slice buf VREC_OFF_SEQ 8 = storeLe64 v.seq ∧ slice buf VREC_OFF_TIME 8 = storeLe64 v.timestamp ∧
      slice buf VREC_OFF_ROOT CAS_HASH_LEN = root ∧ slice buf VREC_OFF_PREV CAS_HASH_LEN = prev ∧
      slice buf VREC_OFF_SIG 64 = sig ∧ slice buf 0 CAS_VREC_SIGNED_LEN = vrecSigned v root prev := by
  have hm : VREC_MAGIC.length = 4 := by decide
  have ht : (casSignTopicId v.pubkey).length = 32 := length_casDigest _
  have hs : (storeLe64 v.seq).length = 8 := length_storeLe _ _
  have hw : (storeLe64 v.timestamp).length = 8 := length_storeLe _ _
  have hr : root.length = 32 := hroot
  have hp : prev.length = 32 := hprev
  have hsl : (vrecSigned v root prev).length = 152 := by
    simp [vrecSigned, hm, ht, hpk, hs, hw, hr, hp]
  intro buf
  have hbuf : buf = VREC_MAGIC ++ ([0, 0, 0, 0] ++ (casSignTopicId v.pubkey ++ (v.pubkey ++ (storeLe64 v.seq ++
      (storeLe64 v.timestamp ++ (root ++ (prev ++ sig))))))) := by
    show vrecSigned v root prev ++ sig = _
    simp [vrecSigned, List.append_assoc]
  refine ⟨?_, ?_, ?_, ?_, ?_, ?_, ?_, ?_, ?_, ?_, ?_⟩
  · show (vrecSigned v root prev ++ sig).length = _
    rw [List.length_append, hsl, hsig]
    rfl
  · rw [hbuf]
    exact slice_front _ _ 4 hm.symm
  · rw [hbuf, slice_append_of_eq _ _ _ 0 _ (by rw [hm]; rfl)]
    exact slice_front _ _ 4 rfl
  · rw [hbuf, slice_append_of_eq _ _ _ 4 _ (by rw [hm]; rfl), slice_append_of_eq _ _ _ 0 _ (by rfl)]
    exact slice_front _ _ _ ht.symm
  · rw [hbuf, slice_append_of_eq _ _ _ 36 _ (by rw [hm]; rfl), slice_append_of_eq _ _ _ 32 _ (by rfl),
      slice_append_of_eq _ _ _ 0 _ (by rw [ht])]
    exact slice_front _ _ _ hpk.symm
  · rw [hbuf, slice_append_of_eq _ _ _ 68 _ (by rw [hm]; rfl), slice_append_of_eq _ _ _ 64 _ (by rfl),
      slice_append_of_eq _ _ _ 32 _ (by rw [ht]), slice_append_of_eq _ _ _ 0 _ (by rw [hpk])]
    exact slice_front _ _ _ hs.symm
  · rw [hbuf, slice_append_of_eq _ _ _ 76 _ (by rw [hm]; rfl), slice_append_of_eq _ _ _ 72 _ (by rfl),
      slice_append_of_eq _ _ _ 40 _ (by rw [ht]), slice_append_of_eq _ _ _ 8 _ (by rw [hpk]),
      slice_append_of_eq _ _ _ 0 _ (by rw [hs])]
    exact slice_front _ _ _ hw.symm
  · rw [hbuf, slice_append_of_eq _ _ _ 84 _ (by rw [hm]; rfl), slice_append_of_eq _ _ _ 80 _ (by rfl),
      slice_append_of_eq _ _ _ 48 _ (by rw [ht]), slice_append_of_eq _ _ _ 16 _ (by rw [hpk]),
      slice_append_of_eq _ _ _ 8 _ (by rw [hs]), slice_append_of_eq _ _ _ 0 _ (by rw [hw])]
    exact slice_front _ _ _ hr.symm
  · rw [hbuf, slice_append_of_eq _ _ _ 116 _ (by rw [hm]; rfl), slice_append_of_eq _ _ _ 112 _ (by rfl),
      slice_append_of_eq _ _ _ 80 _ (by rw [ht]), slice_append_of_eq _ _ _ 48 _ (by rw [hpk]),
      slice_append_of_eq _ _ _ 40 _ (by rw [hs]), slice_append_of_eq _ _ _ 32 _ (by rw [hw]),
      slice_append_of_eq _ _ _ 0 _ (by rw [hr])]
    exact slice_front _ _ _ hp.symm
  · show slice (vrecSigned v root prev ++ sig) _ _ = _
    rw [slice_append_of_eq _ _ _ 0 _ (by rw [hsl]; rfl)]
    exact slice_all _ _ hsig.symm
  · exact slice_front _ _ _ hsl.symm

theorem loadLe64_storeLe64 (x : BitVec 64) : loadLe64 (storeLe64 x) = x := by
  have hlt := x.isLt
  unfold loadLe64 storeLe64
  rw [slice_all _ _ (length_storeLe _ _).symm, loadLe_storeLe_of_lt 8 _ (by simpa using hlt)]
  exact BitVec.eq_of_toNat_eq (by simp)

theorem loadLe64_drop (buf : Bytes) (off : Nat) (x : BitVec 64) (h : slice buf off 8 = storeLe64 x) :
    loadLe64 (buf.drop off) = x := by
  have : slice (buf.drop off) 0 8 = storeLe64 x := by
    rw [← h]
    unfold slice
    rw [List.drop_zero]
  rw [← loadLe64_storeLe64 x]
  unfold loadLe64
  rw [this, slice_all (storeLe64 x) 8 (length_storeLe _ _).symm]

/-- **An encoded record decodes** when its signature checks: its topic is its key's, and its addresses come
back in lower case. -/
theorem casVrecDecode_encode (rec : Bytes) (hpk : v.pubkey.length = 32) (hsig : ∀ msg, (sign msg).length = 64)
    (hcheck : ∀ msg, check (sign msg) v.pubkey msg = true) (h : casVrecEncode sign v = .ok rec) :
    ∃ cand, casVrecDecode check rec = .ok cand ∧ cand.topicId = casSignTopicId v.pubkey ∧ cand.pubkey = v.pubkey ∧
      cand.seq = v.seq ∧ cand.timestamp = v.timestamp ∧ some cand.root = (casHexDecode v.root).map toHex ∧
      (v.prev = [] → cand.prev = []) := by
  unfold casVrecEncode at h
  split at h
  · cases h
  · next hroot =>
    split at h
    · cases h
    · next hprev =>
      split at h
      · next root prev hr hp =>
        obtain rfl := Except.ok.inj h
        have hrl : root.length = CAS_HASH_LEN := by
          obtain ⟨bin, hb, hl⟩ := casHexDecode_of_valid v.root (by simpa using hroot)
          rw [hr] at hb
          rw [Option.some.inj hb]
          exact hl
        have hpl : prev.length = CAS_HASH_LEN := by
          split at hp
          · obtain rfl := Option.some.inj hp
            simp
          · next hne =>
            have hv : validHash v.prev = true := by simpa [hne] using hprev
            obtain ⟨bin, hb, hl⟩ := casHexDecode_of_valid v.prev hv
            rw [hp] at hb
            rw [Option.some.inj hb]
            exact hl
        obtain ⟨h1, h2, h3, h4, h5, h6, h7, h8, h9, h10, h11⟩ :=
          vrecSigned_fields v root prev hpk hrl hpl (sign (vrecSigned v root prev)) (hsig _)
        refine ⟨vrecFields (vrecSigned v root prev ++ sign (vrecSigned v root prev)), ?_, ?_, ?_, ?_, ?_, ?_, ?_⟩
        · unfold casVrecDecode
          rw [if_neg (by simp [h1]), if_neg (by simp [h2]), if_neg (by simp [h3]), h4, h5, h10, h11,
            if_neg (by simp), if_neg (by simp [hcheck])]
        · exact h4
        · exact h5
        · exact loadLe64_drop _ _ _ h6
        · exact loadLe64_drop _ _ _ h7
        · show some (toHex _) = _
          rw [h8, hr]
          rfl
        · intro hnil
          rw [if_pos hnil] at hp
          obtain rfl := Option.some.inj hp
          show (if _ then _ else _) = _
          rw [h9, if_pos rfl]
      · cases h

end

/-- The record follows on the head at the address: of the same topic, one further, and linked to it. -/
structure Follows (cur : Vrec) (addr : Bytes) (cand : Vrec) : Prop where
  topic : cand.topicId = cur.topicId
  seq : cand.seq.toNat = cur.seq.toNat + 1
  prev : cand.prev = addr

/-- **The succession rules let through what follows on the head**; the number cannot wrap. -/
theorem casVrecSucceeds_iff (cur : Vrec) (addr : Bytes) (cand : Vrec) :
    casVrecSucceeds (some (cur, addr)) cand = .cas .ok ↔ Follows cur addr cand := by
  have hsucc : (cur.seq + 1).toNat = (cur.seq.toNat + 1) % 2 ^ 64 := by simp [BitVec.toNat_add]
  have hlt := cand.seq.isLt
  unfold casVrecSucceeds
  simp only []
  constructor
  · intro h
    split at h
    · cases h
    · next htopic =>
      split at h
      · cases h
      · next hstale =>
        split at h
        · split at h <;> cases h
        · split at h
          · next hnext =>
            split at h
            · cases h
            · next hprev =>
              refine ⟨(not_not.mp htopic).symm, ?_, not_not.mp hprev⟩
              have hle : cur.seq.toNat ≤ cand.seq.toNat := by
                rw [BitVec.lt_def] at hstale
                omega
              have hnat : cand.seq.toNat = (cur.seq.toNat + 1) % 2 ^ 64 := by rw [hnext, hsucc]
              have hcur := cur.seq.isLt
              omega
          · cases h
  · rintro ⟨htopic, hseq, hprev⟩
    have hnext : cand.seq = cur.seq + 1 := by
      apply BitVec.eq_of_toNat_eq
      rw [hsucc]
      omega
    have hne : cand.seq ≠ cur.seq := by
      intro heq
      rw [heq] at hseq
      omega
    rw [if_neg (by simp [htopic]), if_neg (by rw [BitVec.lt_def]; omega), if_neg hne, if_pos hnext,
      if_neg (by simp [hprev])]

/-! ## The head and publishing -/

section
variable (check : SigCheck) (cs : Codecs) (flt : Faults)

/-- `load_record` -/
def loadRecord (st : Store) (addr : Bytes) : Except SignStatus Vrec :=
  match casOpenObject cs flt st addr with
  | .error rc => .error (.cas rc)
  | .ok (type, data) => if type ≠ tVrec then .error (.cas .etype) else casVrecDecode check data

/-- `cas_topic_head`: the record and its address. -/
def casTopicHead (ct : CasTree) (refname : Bytes) : Except SignStatus (Vrec × Bytes) :=
  match casTreeRefRead flt ct.refs refname with
  | .error rc => .error (.cas rc)
  | .ok addr => (loadRecord check cs flt ct.store addr).map fun rec => (rec, addr)

/-- The head a publish goes by: none when `cas_topic_head` finds nothing. -/
def headOrNone (r : Except SignStatus (Vrec × Bytes)) : Except SignStatus (Option (Vrec × Bytes)) :=
  match r with
  | .ok cur => .ok (some cur)
  | .error (.cas .enotfound) => .ok none
  | .error rc => .error rc

/-- `cas_topic_publish`, with the time of the commit. -/
def casTopicPublish (ct : CasTree) (refname rec comment : Bytes) (timeS timeNs : Int) : SignStatus × CasTree :=
  match casVrecDecode check rec with
  | .error rc => (rc, ct)
  | .ok cand =>
    match headOrNone (casTopicHead check cs flt ct refname) with
    | .error rc => (rc, ct)
    | .ok cur =>
      if casVrecSucceeds cur cand ≠ .cas .ok then (casVrecSucceeds cur cand, ct)
      else
        match casVrecAddress rec with
        | .error rc => (.cas rc, ct)
        | .ok addr =>
          match casTreePutChecked flt ct.store tVrec rec addr timeS with
          | .error rc => (.cas rc, ct)
          | .ok st =>
            match casTreeRefCommit ct.refs refname addr comment timeS timeNs with
            | .error rc => (.cas rc, ⟨st, ct.refs⟩)
            | .ok refs => (.cas .ok, ⟨st, refs⟩)

end

/-! ## Codes -/

section
variable (check : SigCheck) (cs : Codecs) (flt : Faults)

/-- A record that does not decode is refused with a code of `cas-sign.h`. -/
theorem casVrecDecode_code (buf : Bytes) (rc : SignStatus) (h : casVrecDecode check buf = .error rc) (c : Status) :
    rc ≠ .cas c := by
  rintro rfl
  unfold casVrecDecode at h
  repeat' split at h
  all_goals cases h

theorem casTreeRefRead_ne_ok (refs : Refs) (name : Bytes) : casTreeRefRead flt refs name ≠ .error .ok := by
  unfold casTreeRefRead
  split
  · simp
  · split
    · simp
    · split
      · simp
      · split
        · simp
        · simp only []
          split <;> split <;> simp

theorem casTreePutChecked_ne_ok (st : Store) (type : CStr) (data hash : Bytes) (now : Int) :
    casTreePutChecked flt st type data hash now ≠ .error .ok := by
  unfold casTreePutChecked casPutObjectAt
  repeat' split
  all_goals first | exact storeFile_ne_ok flt _ _ _ _ | simp

theorem loadRecord_ne_ok (st : Store) (addr : Bytes) : loadRecord check cs flt st addr ≠ .error (.cas .ok) := by
  unfold loadRecord
  split
  · next rc h =>
    intro heq
    obtain rfl := SignStatus.cas.inj (Except.error.inj heq)
    exact casOpenObject_ne_ok cs flt st addr h
  · next type data h =>
    split
    · simp
    · intro heq
      exact casVrecDecode_code check data _ heq .ok rfl

theorem casTopicHead_ne_ok (ct : CasTree) (refname : Bytes) :
    casTopicHead check cs flt ct refname ≠ .error (.cas .ok) := by
  unfold casTopicHead
  split
  · next rc h =>
    intro heq
    obtain rfl := SignStatus.cas.inj (Except.error.inj heq)
    exact casTreeRefRead_ne_ok flt _ _ h
  · next addr h =>
    intro heq
    cases hl : loadRecord check cs flt ct.store addr with
    | ok rec =>
      rw [hl] at heq
      cases heq
    | error rc =>
      rw [hl] at heq
      obtain rfl := Except.error.inj heq
      exact loadRecord_ne_ok check cs flt _ _ hl

theorem headOrNone_ne_ok (ct : CasTree) (refname : Bytes) :
    headOrNone (casTopicHead check cs flt ct refname) ≠ .error (.cas .ok) := by
  have hne := casTopicHead_ne_ok check cs flt ct refname
  cases hh : casTopicHead check cs flt ct refname with
  | ok cur => simp [headOrNone]
  | error rc =>
    rw [hh] at hne
    have hrc : rc ≠ .cas .ok := fun heq => hne (by rw [heq])
    unfold headOrNone
    split
    · next h => cases h
    · simp
    · next rc' _ h =>
      obtain rfl := Except.error.inj h
      exact fun heq => hrc (Except.error.inj heq)

end

/-! ## Storing a record -/

section
variable (check : SigCheck) (cs : Codecs) (rec : Bytes)

theorem length_of_decoded (cand : Vrec) (h : casVrecDecode check rec = .ok cand) : rec.length = CAS_VREC_LEN := by
  unfold casVrecDecode at h
  split at h
  · cases h
  · next hlen => exact not_not.mp hlen

/-- The address of a record. -/
def vrecAddr : Bytes := toHex (objBin (tVrec, rec))

theorem validHash_vrecAddr : validHash (vrecAddr rec) = true := validHash_digest2 _ _

variable (hlen : rec.length = CAS_VREC_LEN)
include hlen

theorem storable_vrec : Storable (tVrec, rec) := by
  refine storable_of_small tVrec rec (by decide) (by decide) (by decide) ?_
  rw [hlen]
  decide

theorem casVrecAddress_eq : casVrecAddress rec = .ok (vrecAddr rec) :=
  casHashObject_objBin (tVrec, rec) (storable_vrec rec hlen).toPackable

/-- A record goes in as a loose file, unless there is an object at its address already. -/
theorem casTreePutChecked_vrec (st : Store) (now : Int) :
    casTreePutChecked noFaults st tVrec rec (vrecAddr rec) now =
      .ok (if Fresh st (vrecAddr rec) then st.setLoose (vrecAddr rec) ⟨rawFile (tVrec, rec), now⟩ else st) := by
  have hhdr : formatHeader tVrec rec.length = some (headerText tVrec rec.length ++ [0]) :=
    (storable_vrec rec hlen).header
  have hcheck : casTreeCheckObject false tVrec rec (vrecAddr rec) = .ok := by
    rw [casTreeCheckObject_iff, if_neg (by decide)]
    exact ⟨casVrecAddress_eq rec hlen, fun h => absurd h (by decide)⟩
  obtain ⟨-, -, -, hle⟩ := formatHeader_spec tVrec rec.length _ hhdr
  have h56 : ¬ (headerText tVrec rec.length ++ [0]).length > CAS_PACK_HEADER_LEN := by
    unfold CAS_PACK_HEADER_LEN
    omega
  unfold casTreePutChecked
  simp only [noFaults, hcheck, ne_eq, not_true, if_false]
  unfold casPutObjectAt
  rw [if_neg (by simp [validHash_vrecAddr])]
  simp only [hhdr, if_neg h56]
  by_cases hf : Fresh st (vrecAddr rec)
  · rw [if_neg hf.not_stored, if_pos hf]
    rfl
  · rw [if_neg hf, if_pos]
    by_contra hno
    exact hf (by simpa [Fresh] using hno)

end

/-! ## What a publish does -/

section
variable (check : SigCheck) (cs : Codecs)

/-- A ref that was looked at has a name. -/
theorem validRefName_of_head (flt : Faults) (ct : CasTree) (refname : Bytes) (cur : Option (Vrec × Bytes))
    (h : headOrNone (casTopicHead check cs flt ct refname) = .ok cur) : validRefName refname = true := by
  by_contra hn
  unfold casTopicHead casTreeRefRead at h
  rw [if_pos (by simpa using hn)] at h
  cases h

/-- What a publish that returns `CAS_OK` went through. -/
structure Published (flt : Faults) (ct : CasTree) (refname rec comment : Bytes) (timeS timeNs : Int) (ct' : CasTree)
    (cand : Vrec) (cur : Option (Vrec × Bytes)) (addr : Bytes) : Prop where
  decoded : casVrecDecode check rec = .ok cand
  head : headOrNone (casTopicHead check cs flt ct refname) = .ok cur
  succeeds : casVrecSucceeds cur cand = .cas .ok
  address : casVrecAddress rec = .ok addr
  stored : casTreePutChecked flt ct.store tVrec rec addr timeS = .ok ct'.store
  committed : casTreeRefCommit ct.refs refname addr comment timeS timeNs = .ok ct'.refs

/-- **A publish** went through all its steps, or returned an error and left the depot alone. -/
theorem casTopicPublish_cases (flt : Faults) (ct : CasTree) (refname rec comment : Bytes) (timeS timeNs : Int) :
    let r := casTopicPublish check cs flt ct refname rec comment timeS timeNs
    (r.1 = .cas .ok ∧ ∃ cand cur addr, Published check cs flt ct refname rec comment timeS timeNs r.2 cand cur addr) ∨
      (r.1 ≠ .cas .ok ∧ r.2 = ct) := by
  intro r
  obtain ⟨r', hr⟩ : ∃ r', r = r' := ⟨_, rfl⟩
  rw [hr]
  unfold r casTopicPublish at hr
  split at hr
  · next rc hd =>
    subst hr
    exact .inr ⟨casVrecDecode_code check rec rc hd .ok, rfl⟩
  · next cand hd =>
    have hlen := length_of_decoded check rec cand hd
    split at hr
    · next rc hh =>
      subst hr
      refine .inr ⟨?_, rfl⟩
      rintro rfl
      exact headOrNone_ne_ok check cs flt ct refname hh
    · next cur hh =>
      split at hr
      · next hs =>
        subst hr
        exact .inr ⟨hs, rfl⟩
      · next hs =>
        rw [casVrecAddress_eq rec hlen] at hr
        simp only [] at hr
        split at hr
        · next rc hp =>
          subst hr
          refine .inr ⟨?_, rfl⟩
          intro heq
          obtain rfl := SignStatus.cas.inj heq
          exact casTreePutChecked_ne_ok flt _ _ _ _ _ hp
        · next st hp =>
          -- the name was good for the head, and the address is one: the commit takes both
          obtain ⟨refs, hc⟩ := casTreeRefCommit_valid ct.refs refname (vrecAddr rec) comment timeS timeNs
            (validRefName_of_head check cs flt ct refname cur hh) (validHash_vrecAddr rec)
          rw [hc] at hr
          subst hr
          exact .inl ⟨rfl, cand, cur, vrecAddr rec, hd, hh, not_not.mp hs, casVrecAddress_eq rec hlen, hp, hc⟩

end

/-! ## The head -/

section
variable (check : SigCheck) (cs : Codecs) (ct : CasTree) (name : Bytes)

/-- The ref names an address at which the depot has no object. -/
def HeadMissing : Prop :=
  ∃ addr, casTreeRefRead noFaults ct.refs name = .ok addr ∧ validHash addr = true ∧ casExists ct.store addr = false

theorem casOpenObject_enotfound_iff (st : Store) (addr : Bytes) :
    casOpenObject cs noFaults st addr = .error .enotfound ↔ validHash addr = true ∧ casExists st addr = false := by
  by_cases hv : validHash addr = true
  · rw [casOpenObject_copies cs st addr hv]
    have hp := packCopy_enotfound_iff cs st addr hv
    have hl := looseCopy_enotfound_iff cs st addr
    have hex : casExists st addr = false ↔ st.packed addr = false ∧ st.hasLoose addr = false := by
      unfold casExists
      simp [hv]
    rw [hex]
    cases hc : packCopy cs st addr with
    | ok obj =>
      rw [hc] at hp
      simp only [hv, true_and]
      constructor
      · intro h
        cases h
      · rintro ⟨h, -⟩
        cases hp.mpr h
    | error rc =>
      rw [hc] at hp
      cases rc <;> simp_all
  · unfold casOpenObject
    rw [if_pos (by simpa using hv)]
    simp [hv]

theorem loadRecord_enotfound_iff (st : Store) (addr : Bytes) :
    loadRecord check cs noFaults st addr = .error (.cas .enotfound) ↔ validHash addr = true ∧
      casExists st addr = false := by
  rw [← casOpenObject_enotfound_iff cs]
  unfold loadRecord
  cases ho : casOpenObject cs noFaults st addr with
  | error rc => simp
  | ok obj =>
    simp only []
    constructor
    · intro h
      split at h
      · cases h
      · exact absurd rfl (casVrecDecode_code check obj.2 _ h .enotfound)
    · intro h
      cases h

/-- A ref with a root file is found. -/
theorem casTreeRefRead_found (hroot : (refFile ct.refs (name ++ dotRoot)).isSome = true) :
    casTreeRefRead noFaults ct.refs name ≠ .error .enotfound := by
  obtain ⟨data, hdata⟩ := Option.isSome_iff_exists.mp hroot
  unfold casTreeRefRead
  rw [hdata]
  split
  · simp
  · simp only [noFaults, Bool.false_eq_true, if_false, or_false]
    split
    · simp
    · split <;> split <;> simp

/-- A publish goes by no head where the ref is not there, or names what is missing. -/
theorem headOrNone_none_iff (hroot : (refFile ct.refs (name ++ dotRoot)).isSome = true) :
    headOrNone (casTopicHead check cs noFaults ct name) = .ok none ↔ HeadMissing ct name := by
  have hfound := casTreeRefRead_found ct name hroot
  unfold casTopicHead HeadMissing
  cases hr : casTreeRefRead noFaults ct.refs name with
  | error rc =>
    have hrc : rc ≠ .enotfound := fun h => hfound (by rw [hr, h])
    simp only [reduceCtorEq, false_and, exists_false, iff_false]
    unfold headOrNone
    intro h
    cases rc <;> first | exact hrc rfl | cases h
  | ok addr =>
    have hload := loadRecord_enotfound_iff check cs ct.store addr
    simp only [Except.ok.injEq, exists_eq_left', ← hload]
    cases hl : loadRecord check cs noFaults ct.store addr with
    | ok rec => simp [headOrNone, Except.map]
    | error rc =>
      rw [hl] at hload
      simp only [Except.map, Except.error.injEq]
      unfold headOrNone
      split
      · next h => cases h
      · next h => simp [Except.error.inj h]
      · next rc' hne h =>
        obtain rfl := Except.error.inj h
        constructor
        · intro h
          cases h
        · intro h
          exact absurd h hne

/-- Where it goes by a head, that is the record the ref names. -/
theorem headOrNone_some (flt : Faults) (cur : Vrec) (addr : Bytes)
    (h : headOrNone (casTopicHead check cs flt ct name) = .ok (some (cur, addr))) :
    casTreeRefRead flt ct.refs name = .ok addr ∧ loadRecord check cs flt ct.store addr = .ok cur := by
  unfold casTopicHead at h
  cases hr : casTreeRefRead flt ct.refs name with
  | error rc =>
    rw [hr] at h
    unfold headOrNone at h
    split at h <;> cases h
    next heq => cases heq
  | ok a =>
    rw [hr] at h
    simp only [] at h
    cases hl : loadRecord check cs flt ct.store a with
    | error rc =>
      rw [hl] at h
      unfold headOrNone at h
      split at h <;> cases h
      next heq => cases heq
    | ok rec =>
      rw [hl] at h
      obtain ⟨rfl, rfl⟩ := Prod.mk.inj (Option.some.inj (Except.ok.inj h))
      exact ⟨rfl, hl⟩

/-- A record that is stored where nothing was is read back. -/
theorem loadRecord_stored (st : Store) (rec : Bytes) (now : Int) (hlen : rec.length = CAS_VREC_LEN)
    (hf : Fresh st (vrecAddr rec)) :
    loadRecord check cs noFaults (st.setLoose (vrecAddr rec) ⟨rawFile (tVrec, rec), now⟩) (vrecAddr rec) =
      casVrecDecode check rec := by
  have hv := validHash_vrecAddr rec
  have hp : packCopy cs (st.setLoose (vrecAddr rec) ⟨rawFile (tVrec, rec), now⟩) (vrecAddr rec) = .error .enotfound :=
    (packCopy_enotfound_iff cs st _ hv).mpr hf.2
  unfold loadRecord
  rw [casOpenObject_of_looseCopy cs _ _ hv hp, looseCopy_setLoose_self, looseRead_rawFile _ (storable_vrec rec hlen)]
  simp

end

/-! ## A publish rolls nothing back -/

section
variable (check : SigCheck) (cs : Codecs) (ct : CasTree) (name rec comment : Bytes) (timeS timeNs : Int)

/-- A publish that returns `CAS_OK` found the record the ref names, and the candidate follows on it; any other
leaves the root file alone. -/
def NoRollback : Prop :=
  let r := casTopicPublish check cs noFaults ct name rec comment timeS timeNs
  (r.1 = .cas .ok → ∃ addr cur cand, casTreeRefRead noFaults ct.refs name = .ok addr ∧
    loadRecord check cs noFaults ct.store addr = .ok cur ∧ casVrecDecode check rec = .ok cand ∧ Follows cur addr cand) ∧
  (r.1 ≠ .cas .ok → refFile r.2.refs (name ++ dotRoot) = refFile ct.refs (name ++ dotRoot))

/-- Without a head any record that decodes is published. -/
theorem casTopicPublish_no_head (cand : Vrec) (hn : validRefName name = true)
    (hd : casVrecDecode check rec = .ok cand)
    (hh : headOrNone (casTopicHead check cs noFaults ct name) = .ok none) :
    ∃ refs, casTreeRefCommit ct.refs name (vrecAddr rec) comment timeS timeNs = .ok refs ∧
      casTopicPublish check cs noFaults ct name rec comment timeS timeNs =
        (.cas .ok, ⟨if Fresh ct.store (vrecAddr rec) then
          ct.store.setLoose (vrecAddr rec) ⟨rawFile (tVrec, rec), timeS⟩ else ct.store, refs⟩) := by
  have hlen := length_of_decoded check rec cand hd
  obtain ⟨refs, hc⟩ := casTreeRefCommit_valid ct.refs name (vrecAddr rec) comment timeS timeNs hn
    (validHash_vrecAddr rec)
  refine ⟨refs, hc, ?_⟩
  unfold casTopicPublish
  rw [hd]
  simp only [hh, casVrecSucceeds, ne_eq, not_true, if_false, casVrecAddress_eq rec hlen,
    casTreePutChecked_vrec rec hlen, hc]

/-- **A publish to a ref that is there rolls nothing back** exactly when the record does not decode or the
record the ref names is not missing. -/
theorem publish_no_rollback_iff (hroot : (refFile ct.refs (name ++ dotRoot)).isSome = true) :
    NoRollback check cs ct name rec comment timeS timeNs ↔
      ¬ (HeadMissing ct name ∧ ∃ cand, casVrecDecode check rec = .ok cand) := by
  constructor
  · rintro h ⟨hmiss, cand, hd⟩
    have hh := (headOrNone_none_iff check cs ct name hroot).mpr hmiss
    obtain ⟨addr, hread, hv, hex⟩ := hmiss
    have hn : validRefName name = true := by
      unfold casTreeRefRead at hread
      split at hread
      · cases hread
      · next hn => simpa using hn
    obtain ⟨refs, -, hrun⟩ := casTopicPublish_no_head check cs ct name rec comment timeS timeNs cand hn hd hh
    obtain ⟨addr', cur, -, hread', hload, -, -⟩ := h.1 (by rw [hrun])
    obtain rfl : addr = addr' := Except.ok.inj (hread.symm.trans hread')
    rw [(loadRecord_enotfound_iff check cs ct.store addr).mpr ⟨hv, hex⟩] at hload
    cases hload
  · intro hno
    rcases casTopicPublish_cases check cs noFaults ct name rec comment timeS timeNs with
      ⟨hok, cand, cur, addr, hp⟩ | ⟨hne, hct⟩
    · refine ⟨fun _ => ?_, fun h => absurd hok h⟩
      cases cur with
      | none => exact absurd ⟨(headOrNone_none_iff check cs ct name hroot).mp hp.head, cand, hp.decoded⟩ hno
      | some cur =>
        obtain ⟨cur, addr'⟩ := cur
        obtain ⟨hread, hload⟩ := headOrNone_some check cs ct name noFaults cur addr' hp.head
        exact ⟨addr', cur, cand, hread, hload, hp.decoded, (casVrecSucceeds_iff cur addr' cand).mp hp.succeeds⟩
    · exact ⟨fun h => absurd h hne, fun _ => by rw [hct]⟩

end

end Smolvfs
