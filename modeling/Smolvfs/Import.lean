import Smolvfs.Lib.Loop
import Smolvfs.RawObject
import Smolvfs.Tree

/-!
# Importing a bundle

`import_one` and `cas_pack_import` of `cas-pack.c`: each entry of somebody else's
pack is read, checked against its address and put.

`import_trusted_iff`: with `cas_tree_check_object` as the check, what was readable
stays as it was and a bundle that went through is all there; an object the import
newly stored reads back and passes the check exactly when it is within the
reader's limits in the form it is stored in, which the import does not ask.
-/

namespace Smolvfs

open Octets Loop

/-- `cas_pack_verify_fn` -/
abbrev Verify := CStr → Bytes → Bytes → Status

/-- `struct import_ctx`, less what stays the same in a call. -/
structure ImportCtx where
  store : Store
  total : Nat
  stored : Nat

/-- The object may cross: the verifier says so, or without one the object hashes to its address. -/
def importAdmits (verify : Option Verify) (type : CStr) (data hash : Bytes) : Bool :=
  match verify with
  | some verify => verify type data hash == .ok
  | none =>
    if casTypeIsReencoded type then false
    else
      match casHashObject type data with
      | .error _ => false
      | .ok computed => computed == hash

/-- Which put an object goes through: at its address when it is re-encoded, else under the policy. -/
def importWriter (cfg : CompressConfig) (policy : Policy) (codec : Int) (type : CStr) (data hash : Bytes) : Writer :=
  if casTypeIsReencoded type then .putAt hash else .putZ cfg (casCodecPolicy policy codec data)

/-- `import_one` -/
def importOne (cs : Codecs) (cfg : CompressConfig) (flt : Faults) (policy : Policy) (codec : Int)
    (verify : Option Verify) (now : Bytes → Int) (pack : Pack) (ic : ImportCtx) (hash : Bytes) :
      Except Status ImportCtx :=
  match casPackLookup cs (flt (.bufObj hash)) pack hash with
  | .error rc => .error rc
  | .ok (type, data) =>
    if importAdmits verify type data hash = false then .error .err
    else
      let existed := casExists ic.store hash
      match (importWriter cfg policy codec type data hash).run cs flt ic.store type data (now hash) with
      | .error rc => .error rc
      | .ok (st, _) => .ok ⟨st, ic.total + 1, if existed then ic.stored else ic.stored + 1⟩

/-- `cas_pack_import`: the store afterwards, and the two counts when no entry failed. -/
def casPackImport (cs : Codecs) (cfg : CompressConfig) (flt : Faults) (policy : Policy) (codec : Int)
    (verify : Option Verify) (now : Bytes → Int) (pack : Pack) (st : Store) : Store × Except Status (Nat × Nat) :=
  match runUntil (importOne cs cfg flt policy codec verify now pack) ⟨st, 0, 0⟩ (casPackHashes pack) with
  | (ic, some rc) => (ic.store, .error rc)
  | (ic, none) => (ic.store, .ok (ic.total, ic.stored))

/-- The intended verifier. -/
def treeVerifier (flt : Faults) : Verify := fun type data hash =>
  casTreeCheckObject (flt (.growDir hash)) type data hash

/-! ## What a put does -/

/-- A step of writing the object's file fails. -/
def storeFails (flt : Faults) (hash : Bytes) : Bool :=
  flt (.tempObj hash) || flt (.writeObj hash) || flt (.syncObj hash) || flt (.renameObj hash)

theorem storeFile_fresh (flt : Faults) (st : Store) (hash data : Bytes) (now : Int)
    (hn : st.hasLoose hash = false) :
    storeFile flt st hash data now =
      if storeFails flt hash then .error .eio else .ok (st.setLoose hash ⟨data, now⟩) := by
  unfold storeFile storeFails
  rw [hn]
  cases flt (.tempObj hash) <;> cases flt (.writeObj hash) <;> cases flt (.syncObj hash) <;>
    cases flt (.renameObj hash) <;> rfl

/-- A put at an address leaves an address that is there alone, and otherwise adds a file unless that fails. -/
def PutRuns (flt : Faults) (st : Store) (hash : Bytes) (r : Except Status (Store × Bytes)) : Prop :=
  ∃ f, r = if Fresh st hash then
      (if storeFails flt hash then .error .eio else .ok (st.setLoose hash f, hash))
    else .ok (st, hash)

section
variable (flt : Faults) (st : Store) (type : CStr) (data hash hdr : Bytes) (now : Int)

/-- The tail that all puts share. -/
theorem putRuns_tail (file : Bytes) :
    PutRuns flt st hash ((if (st.hasLoose hash || st.packed hash) = true then Except.ok st
      else storeFile flt st hash file now).map fun st' => (st', hash)) := by
  refine ⟨⟨file, now⟩, ?_⟩
  by_cases hf : Fresh st hash
  · rw [if_neg hf.not_stored, if_pos hf, storeFile_fresh flt st hash file now hf.1]
    split <;> rfl
  · rw [if_pos ((not_fresh_iff st hash).mp hf), if_neg hf]
    rfl

theorem casPutObjectAt_runs (hv : validHash hash = true) (hh : formatHeader type data.length = some hdr) :
    PutRuns flt st hash ((casPutObjectAt flt st type data hash now).map fun st' => (st', hash)) := by
  have hle := (formatHeader_spec type data.length hdr hh).2.2.2
  unfold casPutObjectAt
  rw [if_neg (by simp [hv])]
  simp only [hh, if_neg (show ¬ hdr.length > CAS_PACK_HEADER_LEN by unfold CAS_PACK_HEADER_LEN; omega)]
  exact putRuns_tail flt st hash now _

theorem casPutPrecompressed_runs (codec : Int) (payload : Bytes) (hv : validHash hash = true)
    (hb : 0 ≤ codec ∧ codec ≤ 255) (hn : codec ≠ CAS_CODEC_NONE)
    (hh : formatHeader type data.length = some hdr) :
    PutRuns flt st hash
      ((casPutPrecompressed flt st type codec payload data.length hash now).map fun st' => (st', hash)) := by
  have hle := (formatHeader_spec type data.length hdr hh).2.2.2
  unfold casPutPrecompressed
  rw [if_neg (by rintro (h | h | h) <;> [simp [hv] at h; omega; omega]), if_neg (fun h => hn h.1)]
  simp only [hh, if_neg (show ¬ hdr.length > CAS_PACK_HEADER_LEN by unfold CAS_PACK_HEADER_LEN; omega)]
  exact putRuns_tail flt st hash now _

theorem casPutObjectZ_runs (cs : Codecs) (cfg : CompressConfig) (codec : Int) (hv : validHash hash = true)
    (hh : formatHeader type data.length = some hdr) (ha : casHashObject type data = .ok hash) :
    PutRuns flt st hash (casPutObjectZ cs cfg flt st type codec data now) := by
  unfold casPutObjectZ
  simp only [ha]
  by_cases hf : Fresh st hash
  · rw [(fresh_iff st hash hv).mp hf, if_neg (by simp)]
    cases hw : compressWins cs cfg (flt (.scratchObj hash)) codec data with
    | none => exact casPutObjectAt_runs flt st type data hash hdr now hv hh
    | some payload =>
      obtain ⟨hn, he, -⟩ := compressWins_spec cs cfg _ codec data payload hw
      exact casPutPrecompressed_runs flt st type data hash hdr now codec payload hv
        (encode_byte cs codec data payload _ hn he) hn hh
  · have hex : casExists st hash = true := by
      by_contra h
      exact hf ((fresh_iff st hash hv).mpr (by simpa using h))
    rw [if_pos hex]
    exact ⟨⟨[], 0⟩, by rw [if_neg hf]⟩

end

/-! ## The loop -/

section
variable (cs : Codecs) (cfg : CompressConfig) (flt : Faults) (policy : Policy) (codec : Int) (now : Bytes → Int)
  (pack : Pack) (st0 : Store)

/-- An entry that goes through: it is read and admitted, its header fits, and it is there or can be written. -/
def importable (hash : Bytes) : Bool :=
  match casPackLookup cs (flt (.bufObj hash)) pack hash with
  | .error _ => false
  | .ok (type, data) =>
    (casTreeCheckObject (flt (.growDir hash)) type data hash == .ok) &&
      ((formatHeader type data.length).isSome && (casExists st0 hash || !storeFails flt hash))

/-- An entry the object of which is new, as the import leaves it. -/
def ImportedFile (st : Store) (hash : Bytes) : Prop :=
  ∃ type data f, casPackLookup cs (flt (.bufObj hash)) pack hash = .ok (type, data) ∧
    Admitted (type, data) hash ∧ st.loose.lookup hash = some f ∧
    ReadsIff cs f.data (type, data) ((importWriter cfg policy codec type data hash).Fits cs flt type data hash)

/-- What the entries `pre` have made of the depot `st0`: a file more for each that was new. -/
structure ImportedFrom (pre : List Bytes) (st : Store) : Prop where
  handle : st.pack = st0.pack
  passed : ∀ hash ∈ pre, importable cs flt pack st0 hash = true
  kept : ∀ hash, ¬ (Fresh st0 hash ∧ hash ∈ pre) → st.loose.lookup hash = st0.loose.lookup hash
  added : ∀ hash ∈ pre, Fresh st0 hash → ImportedFile cs cfg flt policy codec pack st hash

variable {cs cfg flt policy codec now pack st0}

theorem ImportedFrom.packed {pre : List Bytes} {st : Store} (h : ImportedFrom cs cfg flt policy codec pack st0 pre st)
    (hash : Bytes) : st.packed hash = st0.packed hash := by
  unfold Store.packed
  rw [h.handle]

/-- What is in the depot by then: what was there, and the entries so far. -/
theorem ImportedFrom.fresh_iff {pre : List Bytes} {st : Store}
    (h : ImportedFrom cs cfg flt policy codec pack st0 pre st) (hash : Bytes) :
    Fresh st hash ↔ Fresh st0 hash ∧ hash ∉ pre := by
  by_cases hc : Fresh st0 hash ∧ hash ∈ pre
  · obtain ⟨type, data, f, -, -, hl, -⟩ := h.added hash hc.2 hc.1
    refine iff_of_false ?_ (fun hn => hn.2 hc.2)
    rintro ⟨hnl, -⟩
    unfold Store.hasLoose at hnl
    rw [hl] at hnl
    cases hnl
  · have hl := h.kept hash hc
    have heq : Fresh st hash ↔ Fresh st0 hash := by
      unfold Fresh Store.hasLoose
      rw [hl, h.packed]
    rw [heq]
    exact ⟨fun hf => ⟨hf, fun hm => hc ⟨hf, hm⟩⟩, fun hf => hf.1⟩

theorem importable_iff (hash : Bytes) : importable cs flt pack st0 hash = true ↔
    ∃ type data hdr, casPackLookup cs (flt (.bufObj hash)) pack hash = .ok (type, data) ∧
      casTreeCheckObject (flt (.growDir hash)) type data hash = .ok ∧
      formatHeader type data.length = some hdr ∧ (casExists st0 hash = true ∨ storeFails flt hash = false) := by
  unfold importable
  cases hl : casPackLookup cs (flt (.bufObj hash)) pack hash with
  | error e => simp
  | ok obj =>
    obtain ⟨type, data⟩ := obj
    simp only [Bool.and_eq_true, beq_iff_eq, Option.isSome_iff_exists, Bool.or_eq_true, Bool.not_eq_true',
      Except.ok.injEq, Prod.mk.injEq]
    constructor
    · rintro ⟨h1, ⟨hdr, h2⟩, h3⟩
      exact ⟨type, data, hdr, ⟨rfl, rfl⟩, h1, h2, h3⟩
    · rintro ⟨_, _, hdr, ⟨rfl, rfl⟩, h1, h2, h3⟩
      exact ⟨h1, ⟨hdr, h2⟩, h3⟩

/-- The put of an admitted entry, at its own address. -/
theorem importWriter_runs (st : Store) (type : CStr) (data hash hdr : Bytes) (t : Int) (hv : validHash hash = true)
    (hh : formatHeader type data.length = some hdr) (noMem : Bool)
    (hc : casTreeCheckObject noMem type data hash = .ok) :
    PutRuns flt st hash ((importWriter cfg policy codec type data hash).run cs flt st type data t) := by
  unfold importWriter
  by_cases hre : casTypeIsReencoded type = true
  · rw [if_pos hre]
    exact casPutObjectAt_runs flt st type data hash hdr t hv hh
  · rw [if_neg hre]
    rw [casTreeCheckObject_iff, if_neg (fun h => hre (by rw [h]; rfl))] at hc
    exact casPutObjectZ_runs flt st type data hash hdr t cs cfg _ hv hh hc.1

/-- A put that succeeded wrote a header, or would have. -/
theorem importWriter_header (st : Store) (type : CStr) (data hash : Bytes) (t : Int) (noMem : Bool)
    (out : Store × Bytes) (hc : casTreeCheckObject noMem type data hash = .ok)
    (h : (importWriter cfg policy codec type data hash).run cs flt st type data t = .ok out) :
    ∃ hdr, formatHeader type data.length = some hdr := by
  by_cases hre : casTypeIsReencoded type = true
  · unfold importWriter at h
    rw [if_pos hre] at h
    cases hf : formatHeader type data.length with
    | some hdr => exact ⟨hdr, rfl⟩
    | none =>
      unfold Writer.run casPutObjectAt at h
      simp only [hf] at h
      split at h <;> cases h
  · rw [casTreeCheckObject_iff, if_neg (fun h => hre (by rw [h]; rfl))] at hc
    obtain ⟨hdr, hh, -⟩ := casHashObject_spec type data hash hc.1
    exact ⟨hdr, hh⟩

/-- What an entry that goes through has shown. -/
theorem importOne_ok (ic ic' : ImportCtx) (hash : Bytes)
    (h : importOne cs cfg flt policy codec (some (treeVerifier flt)) now pack ic hash = .ok ic') :
    ∃ type data hash', casPackLookup cs (flt (.bufObj hash)) pack hash = .ok (type, data) ∧
      casTreeCheckObject (flt (.growDir hash)) type data hash = .ok ∧
      (importWriter cfg policy codec type data hash).run cs flt ic.store type data (now hash) =
        .ok (ic'.store, hash') := by
  unfold importOne at h
  cases hl : casPackLookup cs (flt (.bufObj hash)) pack hash with
  | error e => simp [hl] at h
  | ok obj =>
    obtain ⟨type, data⟩ := obj
    simp only [hl] at h
    split at h
    · cases h
    · next hadm =>
      cases hrun : (importWriter cfg policy codec type data hash).run cs flt ic.store type data (now hash) with
      | error e => simp [hrun] at h
      | ok out =>
        obtain ⟨st', hash'⟩ := out
        simp only [hrun] at h
        obtain rfl : st' = ic'.store := by rw [← Except.ok.inj h]
        exact ⟨type, data, hash', rfl, by simpa [importAdmits, treeVerifier] using hadm, hrun⟩

/-- **One entry on**: an entry that goes through is importable, and leaves a file if it was new. -/
theorem importOne_step (hr : cs.RoundTrips) (pre : List Bytes) (ic ic' : ImportCtx) (hash : Bytes)
    (hv : validHash hash = true) (hinv : ImportedFrom cs cfg flt policy codec pack st0 pre ic.store)
    (h : importOne cs cfg flt policy codec (some (treeVerifier flt)) now pack ic hash = .ok ic') :
    ImportedFrom cs cfg flt policy codec pack st0 (pre ++ [hash]) ic'.store := by
  obtain ⟨type, data, hash', hl, hc, hrun⟩ := importOne_ok ic ic' hash h
  obtain ⟨hdr, hh⟩ := importWriter_header ic.store type data hash (now hash) _ _ hc hrun
  obtain ⟨f, hf⟩ := @importWriter_runs cs cfg _ policy codec ic.store
    type data hash hdr (now hash) hv hh _ hc
  rw [hrun] at hf
  by_cases hfr : Fresh ic.store hash
  · rw [if_pos hfr] at hf
    split at hf
    · cases hf
    next hfail =>
    obtain ⟨-, rfl⟩ := Prod.mk.inj (Except.ok.inj hf)
    obtain ⟨-, -, f', hst, hreads⟩ := writer_fresh cs hr flt ic.store ic'.store _ type data hash' _ hrun hfr
    have hnew := (hinv.fresh_iff hash').mp hfr
    rw [hst]
    refine ⟨hinv.handle, ?_, ?_, ?_⟩
    · intro k hk
      rcases List.mem_append.mp hk with hk | hk
      · exact hinv.passed k hk
      · obtain rfl := List.mem_singleton.mp hk
        exact (importable_iff k).mpr ⟨type, data, hdr, hl, hc, hh, .inr (by simpa using hfail)⟩
    · intro k hk
      have hne : k ≠ hash' := by
        rintro rfl
        exact hk ⟨hnew.1, by simp⟩
      rw [setLoose_lookup_ne _ _ _ _ hne]
      exact hinv.kept k fun hc => hk ⟨hc.1, by simp [hc.2]⟩
    · intro k hk hkf
      by_cases hne : k = hash'
      · rw [hne]
        exact ⟨type, data, f', hl, admitted_of_check _ type data hash' hc, setLoose_lookup_self _ _ _, hreads⟩
      · obtain ⟨type', data', g, h1, h2, h3, h4⟩ := hinv.added k (by simpa [hne] using hk) hkf
        exact ⟨type', data', g, h1, h2, by rw [setLoose_lookup_ne _ _ _ _ hne]; exact h3, h4⟩
  · rw [if_neg hfr] at hf
    obtain ⟨hst, -⟩ := Prod.mk.inj (Except.ok.inj hf)
    rw [hst]
    have hold : ∀ k, Fresh st0 k → k ∈ pre ++ [hash] → k ∈ pre := by
      intro k hkf hk
      by_contra hnp
      have hkh : k = hash := by simpa [hnp] using hk
      exact hfr ((hinv.fresh_iff hash).mpr (hkh ▸ ⟨hkf, hnp⟩))
    refine ⟨hinv.handle, ?_, ?_, ?_⟩
    · intro k hk
      by_cases hkp : k ∈ pre
      · exact hinv.passed k hkp
      · have hkh : k = hash := by simpa [hkp] using hk
        rw [hkh]
        refine (importable_iff hash).mpr ⟨type, data, hdr, hl, hc, hh, .inl ?_⟩
        refine casExists_of_not_fresh st0 hash hv fun hf0 => ?_
        exact hkp (hkh ▸ hold hash hf0 (by simp))
    · intro k hk
      exact hinv.kept k fun hc => hk ⟨hc.1, by simp [hc.2]⟩
    · intro k hk hkf
      exact hinv.added k (hold k hkf hk) hkf

/-- An entry that stops the loop is not importable. -/
theorem importOne_stop (pre : List Bytes) (ic : ImportCtx) (hash : Bytes) (rc : Status)
    (hv : validHash hash = true) (hinv : ImportedFrom cs cfg flt policy codec pack st0 pre ic.store)
    (h : importOne cs cfg flt policy codec (some (treeVerifier flt)) now pack ic hash = .error rc) :
    importable cs flt pack st0 hash = false := by
  by_contra hno
  obtain ⟨type, data, hdr, hl, hc, hh, hput⟩ := (importable_iff hash).mp (by simpa using hno)
  obtain ⟨f, hf⟩ := @importWriter_runs cs cfg _ policy codec ic.store
    type data hash hdr (now hash) hv hh _ hc
  have hadm : importAdmits (some (treeVerifier flt)) type data hash = true := by
    simpa [importAdmits, treeVerifier] using hc
  have hok : ∃ out, (importWriter cfg policy codec type data hash).run cs flt ic.store type data (now hash) =
      .ok out := by
    rw [hf]
    by_cases hfr : Fresh ic.store hash
    · have hf0 := ((hinv.fresh_iff hash).mp hfr).1
      rw [(Smolvfs.fresh_iff st0 hash hv).mp hf0] at hput
      rw [if_pos hfr, if_neg (by simpa using hput)]
      exact ⟨_, rfl⟩
    · rw [if_neg hfr]
      exact ⟨_, rfl⟩
  obtain ⟨out, hrun⟩ := hok
  unfold importOne at h
  simp only [hl, hadm, hrun] at h
  cases h

end

/-! ## The result -/

theorem validHash_packHashes (pack : Pack) (hash : Bytes) (h : hash ∈ casPackHashes pack) :
    validHash hash = true := by
  obtain ⟨i, -, rfl⟩ := List.mem_map.mp h
  refine (lowerHash_toHex _ ?_).valid
  exact Pack.length_read _ _ _

/-- What an import with the intended check promises of the depot it leaves. -/
structure ImportTrusted (cs : Codecs) (st st' : Store) (pack : Pack) (r : Except Status (Nat × Nat)) : Prop where
  admitted : ∀ hash, casExists st hash = false → casExists st' hash = true →
    ∃ obj, casOpenObject cs noFaults st' hash = .ok obj ∧ Admitted obj hash
  kept : ∀ hash obj, casOpenObject cs noFaults st hash = .ok obj → casOpenObject cs noFaults st' hash = .ok obj
  complete : ∀ counts, r = .ok counts → ∀ hash ∈ casPackHashes pack, casExists st' hash = true

/-- The entries that go through before the first that does not. -/
def importedEntries (cs : Codecs) (flt : Faults) (pack : Pack) (st : Store) : List Bytes :=
  (casPackHashes pack).takeWhile (importable cs flt pack st)

/-- Every object the import newly stores is within the reader's limits, in the form it is stored in. -/
def ImportFits (cs : Codecs) (cfg : CompressConfig) (flt : Faults) (policy : Policy) (codec : Int) (pack : Pack)
    (st : Store) : Prop :=
  ∀ hash ∈ importedEntries cs flt pack st, Fresh st hash → ∀ type data,
    casPackLookup cs (flt (.bufObj hash)) pack hash = .ok (type, data) →
      (importWriter cfg policy codec type data hash).Fits cs flt type data hash

theorem takeWhile_eq_of_stop {α : Type} (p : α → Bool) (pre post : List α) (hpre : ∀ x ∈ pre, p x = true)
    (hpost : post = [] ∨ ∃ x rest, post = x :: rest ∧ p x = false) : (pre ++ post).takeWhile p = pre := by
  rw [List.takeWhile_append_of_pos hpre]
  rcases hpost with rfl | ⟨x, rest, rfl, hx⟩
  · simp
  · simp [hx]

section
variable (cs : Codecs) (cfg : CompressConfig) (flt : Faults) (policy : Policy) (codec : Int) (now : Bytes → Int)
  (pack : Pack) (st : Store)

/-- **The whole run**: the entries before the first that fails are in, and all of them when none does. -/
theorem casPackImport_run (hr : cs.RoundTrips) :
    ImportedFrom cs cfg flt policy codec pack st (importedEntries cs flt pack st)
        (casPackImport cs cfg flt policy codec (some (treeVerifier flt)) now pack st).1 ∧
      ∀ counts, (casPackImport cs cfg flt policy codec (some (treeVerifier flt)) now pack st).2 = .ok counts →
        importedEntries cs flt pack st = casPackHashes pack := by
  obtain ⟨pre, post, hxs, hsteps, hend⟩ := runUntil_spec
    (importOne cs cfg flt policy codec (some (treeVerifier flt)) now pack) ⟨st, 0, 0⟩ (casPackHashes pack)
  have hvalid : ∀ hash ∈ casPackHashes pack, validHash hash = true := validHash_packHashes pack
  generalize hout : runUntil (importOne cs cfg flt policy codec (some (treeVerifier flt)) now pack) ⟨st, 0, 0⟩
    (casPackHashes pack) = out at *
  obtain ⟨ic, r⟩ := out
  have hinv : ImportedFrom cs cfg flt policy codec pack st pre ic.store := by
    have h0 : ImportedFrom cs cfg flt policy codec pack st [] st :=
      ⟨rfl, by simp, fun _ _ => rfl, by simp⟩
    -- only entries of the pack are fed to the loop, so each has a valid hash
    have h := hsteps.invariant (fun done ic => (∀ hash ∈ done, hash ∈ casPackHashes pack) →
      ImportedFrom cs cfg flt policy codec pack st done ic.store) [] (fun _ => h0) (fun done ic hash ic' ih hs hin =>
        importOne_step hr done ic ic' hash (hvalid hash (hin hash (by simp)))
          (ih fun k hk => hin k (by simp [hk])) hs)
    exact h fun hash hm => by rw [hxs]; simp at hm; simp [hm]
  have htake : importedEntries cs flt pack st = pre := by
    unfold importedEntries
    rw [hxs]
    refine takeWhile_eq_of_stop _ _ _ hinv.passed ?_
    rcases hend with ⟨-, hp⟩ | ⟨e, x, rest, -, hp, hstop⟩
    · exact .inl hp
    · refine .inr ⟨x, rest, hp, ?_⟩
      exact importOne_stop pre ic x e (hvalid x (by rw [hxs, hp]; simp)) hinv hstop
  have hrun : casPackImport cs cfg flt policy codec (some (treeVerifier flt)) now pack st =
      match (ic, r) with
      | (ic, some rc) => (ic.store, .error rc)
      | (ic, none) => (ic.store, .ok (ic.total, ic.stored)) := by
    unfold casPackImport
    rw [hout]
  rw [hrun, htake]
  cases r with
  | some rc => exact ⟨hinv, fun counts h => by cases h⟩
  | none =>
    refine ⟨hinv, fun counts _ => ?_⟩
    rcases hend with ⟨-, hp⟩ | ⟨e, x, rest, he, -, -⟩
    · rw [hxs, hp, List.append_nil]
    · cases he

/-- What becomes of a new entry: it is there, admitted, and read exactly when it is within the limits. -/
theorem imported_open (st' : Store) (hash : Bytes) (type : CStr) (data : Bytes)
    (hinv : ImportedFrom cs cfg flt policy codec pack st (importedEntries cs flt pack st) st')
    (hm : hash ∈ importedEntries cs flt pack st) (hf : Fresh st hash)
    (hlook : casPackLookup cs (flt (.bufObj hash)) pack hash = .ok (type, data)) :
    casExists st' hash = true ∧ Admitted (type, data) hash ∧
      ((importWriter cfg policy codec type data hash).Fits cs flt type data hash →
        casOpenObject cs noFaults st' hash = .ok (type, data)) ∧
      (¬ (importWriter cfg policy codec type data hash).Fits cs flt type data hash →
        casOpenObject cs noFaults st' hash = .error .err) := by
  obtain ⟨type', data', f, hlook', hadm, hl, hfit, hunfit⟩ := hinv.added hash hm hf
  obtain ⟨rfl, rfl⟩ := Prod.mk.inj (Except.ok.inj (hlook'.symm.trans hlook))
  have hv := validHash_packHashes pack hash ((List.takeWhile_sublist _).subset hm)
  have hread : casOpenObject cs noFaults st' hash = looseRead cs f.data := by
    refine casOpenObject_of_loose cs st' hash f hv ?_ hl
    rw [hinv.packed]
    exact hf.2
  rw [hread]
  refine ⟨casExists_of_not_fresh st' hash hv fun hf' => ?_, hadm, hfit, hunfit⟩
  exact ((hinv.fresh_iff hash).mp hf').2 hm

/-- **Import is a trust boundary exactly as far as the reader's limits go**: what was readable stays, a
bundle that went through is all there, and what is new reads back and passes its check exactly when every
object newly stored is within the limits. -/
theorem import_trusted_iff (hr : cs.RoundTrips) :
    ImportTrusted cs st (casPackImport cs cfg flt policy codec (some (treeVerifier flt)) now pack st).1 pack
        (casPackImport cs cfg flt policy codec (some (treeVerifier flt)) now pack st).2 ↔
      ImportFits cs cfg flt policy codec pack st := by
  obtain ⟨hinv, hall⟩ := casPackImport_run cs cfg flt policy codec now pack st hr
  generalize casPackImport cs cfg flt policy codec (some (treeVerifier flt)) now pack st = out at *
  obtain ⟨st', r⟩ := out
  have hin : ∀ hash ∈ importedEntries cs flt pack st, hash ∈ casPackHashes pack :=
    fun hash hm => (List.takeWhile_sublist _).subset hm
  constructor
  · intro h hash hm hf type data hlook
    obtain ⟨hnew, -, -, hunfit⟩ := imported_open cs cfg flt policy codec pack st st' hash type data hinv hm hf hlook
    have hv := validHash_packHashes pack hash (hin hash hm)
    obtain ⟨obj, hopen, -⟩ := h.admitted hash ((Smolvfs.fresh_iff st hash hv).mp hf) hnew
    by_contra hno
    rw [hunfit hno] at hopen
    cases hopen
  · intro h
    refine ⟨?_, ?_, ?_⟩
    · intro hash hold hnew
      have hv : validHash hash = true := by
        unfold casExists at hnew
        exact (Bool.and_eq_true _ _ ▸ hnew).1
      have hf : Fresh st hash := (Smolvfs.fresh_iff st hash hv).mpr hold
      have hm : hash ∈ importedEntries cs flt pack st := by
        by_contra hno
        have := (hinv.fresh_iff hash).mpr ⟨hf, hno⟩
        rw [(Smolvfs.fresh_iff st' hash hv).mp this] at hnew
        cases hnew
      obtain ⟨type, data, -, hlook, -⟩ := hinv.added hash hm hf
      obtain ⟨-, hadm, hfit, -⟩ := imported_open cs cfg flt policy codec pack st st' hash type data hinv hm hf hlook
      exact ⟨(type, data), hfit (h hash hm hf type data hlook), hadm⟩
    · intro hash obj hopen
      have hnf : ¬ Fresh st hash := fun hf => casOpenObject_absent cs st hash hf.1 hf.2 obj hopen
      rw [casOpenObject_congr cs st hash noFaults st' hinv.handle (hinv.kept hash fun hc => hnf hc.1)]
      exact hopen
    · intro counts hok hash hm
      refine casExists_of_not_fresh st' hash (validHash_packHashes pack hash hm) fun hf => ?_
      rw [← hall counts hok] at hm
      exact ((hinv.fresh_iff hash).mp hf).2 hm

end

/-! ## A bundle of one blob -/

section
variable (data : Bytes) (hs : Packable (tBlob, data))

/-- On a new depot a bundle of one blob goes through. -/
theorem importedEntries_blob :
    importedEntries [] noFaults (rawBundle _ hs) Store.empty = [toHex (objBin (tBlob, data))] := by
  have hgo : importable [] noFaults (rawBundle _ hs) Store.empty (toHex (objBin (tBlob, data))) = true := by
    refine (importable_iff _).mpr ⟨tBlob, data, _, casPackLookup_rawBundle _ hs [], ?_, hs.header, .inr rfl⟩
    rw [casTreeCheckObject_iff, if_neg (by decide)]
    exact ⟨casHashObject_objBin _ hs, fun h => absurd (congrArg CStr.bytes h) (by decide)⟩
  unfold importedEntries
  rw [casPackHashes_rawBundle, List.takeWhile_cons, hgo]
  rfl

/-- With no compression asked for, the blob is within the limits when its file is. -/
theorem importWriter_fits_blob (hash : Bytes) :
    (importWriter casCompressionDefault .never CAS_CODEC_NONE tBlob data hash).Fits [] noFaults tBlob data hash ↔
      RawFits tBlob data := by
  have hw : importWriter casCompressionDefault .never CAS_CODEC_NONE tBlob data hash =
      .putZ casCompressionDefault CAS_CODEC_NONE := by
    unfold importWriter
    rw [if_neg (by decide)]
    rfl
  have hc : compressWins [] casCompressionDefault false CAS_CODEC_NONE data = none := by
    unfold compressWins
    rw [if_neg (by simp)]
  rw [hw]
  unfold Writer.Fits
  simp only [noFaults, hc]

end

theorem packable_hello : Packable (tBlob, [104, 105]) :=
  packable_of_small tBlob _ (by decide) (by decide) (by decide) (by decide)

/-- A bundle of a small blob is imported and trusted. -/
theorem import_trusted_hello :
    ImportTrusted [] Store.empty
      (casPackImport [] casCompressionDefault noFaults .never CAS_CODEC_NONE (some (treeVerifier noFaults))
        (fun _ => 0) (rawBundle _ packable_hello) Store.empty).1 (rawBundle _ packable_hello)
      (casPackImport [] casCompressionDefault noFaults .never CAS_CODEC_NONE (some (treeVerifier noFaults))
        (fun _ => 0) (rawBundle _ packable_hello) Store.empty).2 := by
  refine (import_trusted_iff [] _ noFaults _ _ _ _ _ roundTrips_nil).mpr ?_
  intro hash hm _ type data hlook
  rw [importedEntries_blob] at hm
  obtain rfl := List.mem_singleton.mp hm
  obtain ⟨rfl, rfl⟩ := Prod.mk.inj (Except.ok.inj ((casPackLookup_rawBundle _ packable_hello []).symm.trans hlook))
  exact (importWriter_fits_blob _ _).mpr ⟨by decide, by decide⟩

/-- One gibibyte of zeros. -/
def gibData : Bytes := List.replicate (2 ^ 30) 0

theorem length_gibData : gibData.length = 2 ^ 30 := List.length_replicate

theorem packable_gib : Packable (tBlob, gibData) :=
  packable_of_small tBlob _ (by decide) (by decide) (by decide) (by rw [length_gibData]; decide)

/-- A blob of one gibibyte passes the check, is stored, and does not read back. -/
theorem import_gib_unreadable : ∃ st',
    (casPackImport [] casCompressionDefault noFaults .never CAS_CODEC_NONE (some (treeVerifier noFaults))
      (fun _ => 0) (rawBundle _ packable_gib) Store.empty).1 = st' ∧
    casExists Store.empty (toHex (objBin (tBlob, gibData))) = false ∧
    casExists st' (toHex (objBin (tBlob, gibData))) = true ∧
    casOpenObject [] noFaults st' (toHex (objBin (tBlob, gibData))) = .error .err := by
  obtain ⟨hinv, -⟩ := casPackImport_run [] casCompressionDefault noFaults .never CAS_CODEC_NONE (fun _ => 0)
    (rawBundle _ packable_gib) Store.empty roundTrips_nil
  have hf : Fresh Store.empty (toHex (objBin (tBlob, gibData))) := fresh_empty _
  have hv : validHash (toHex (objBin (tBlob, gibData))) = true := validHash_digest2 _ _
  obtain ⟨hnew, -, -, hunfit⟩ := imported_open [] casCompressionDefault noFaults .never CAS_CODEC_NONE
    (rawBundle _ packable_gib) Store.empty _ _ tBlob gibData hinv (by rw [importedEntries_blob]; simp) hf
    (casPackLookup_rawBundle _ packable_gib [])
  refine ⟨_, rfl, (Smolvfs.fresh_iff _ _ hv).mp hf, hnew, hunfit ?_⟩
  rw [importWriter_fits_blob]
  rintro ⟨-, hsz⟩
  rw [length_gibData] at hsz
  exact absurd hsz (by decide)

end Smolvfs
