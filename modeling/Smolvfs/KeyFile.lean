import Smolvfs.LogLines
import Smolvfs.Topic

/-!
# Key files

`cas_sign_key_generate` and `cas_sign_key_load` of `cas-sign.c`: the seed of a key is
kept as a line of hex after a line that says what the file is.  Every call on the way
may fail.

`key_file_kept`: whatever fails, no file that is there is touched, and what is made can
be read by its owner alone; a key that was generated is loaded again.
-/

namespace Smolvfs

open Octets

/-! ## The files -/

/-- A file outside of the depots. -/
structure HostFile where
  mode : BitVec 32
  data : Bytes

abbrev HostFiles := AList fun _ : Bytes => HostFile

/-- The codes of a key file, with those of the backend. -/
inductive KeyStatus
  | sign (rc : SignStatus)
  | enobackend | ekeyperm | ekeyexists | ekeyform
  deriving DecidableEq, Repr

/-- `cas_sign_key_pair` of a backend: the secret and the public key of a seed. -/
abbrev KeyPair := Bytes → Except SignStatus (Bytes × Bytes)

def CAS_SIGN_SEED_LEN : Nat := 32

/-- `CAS_SIGN_KEY_MAGIC` -/
def CAS_SIGN_KEY_MAGIC : Bytes :=
  (lit ['s', 'm', 'o', 'l', 'v', 'f', 's', '-', 's', 'e', 'c', 'r', 'e', 't', '-', 'k', 'e', 'y', '-', 'v', '1']).bytes

/-! ## Generating -/

/-- What fails, of what `cas_sign_key_generate` calls. -/
structure KeygenFaults where
  /-- `open`, for another reason than a file that is there -/
  openKey : Bool
  /-- `write`, with so many octets in the file -/
  write : Option Nat
  fsync : Bool
  close : Bool
  unlink : Bool

/-- `read_entropy`, of what comes from the source if it can be opened. -/
def readEntropy (entropy : Option Bytes) : Except Status Bytes :=
  match entropy with
  | none => .error .eio
  | some seed => if seed.length = CAS_SIGN_SEED_LEN then .ok seed else .error .eio

/-- `"%s\n%s\n"` -/
def keyText (seed : Bytes) : Bytes := CAS_SIGN_KEY_MAGIC ++ (10 :: (toHex seed ++ [10]))

/-- `sizeof(buf)` -/
def KEY_BUF : Nat := 128

/-- `unlink` after a failure. -/
def unlinkKey (fails : Bool) (path : Bytes) (files : HostFiles) : HostFiles :=
  if fails then files else files.erase path

/-- `cas_sign_key_generate`: the public key, and the files then. -/
def casSignKeyGenerate (backend : Option KeyPair) (flt : KeygenFaults) (entropy : Option Bytes) (umask : BitVec 32)
    (files : HostFiles) (path : Bytes) : Except KeyStatus Bytes × HostFiles :=
  match backend with
  | none => (.error .enobackend, files)
  | some keyPair =>
    match readEntropy entropy with
    | .error rc => (.error (.sign (.cas rc)), files)
    | .ok seed =>
      match keyPair seed with
      | .error rc => (.error (.sign rc), files)
      | .ok (_, pk) =>
        if (files.lookup path).isSome then (.error .ekeyexists, files)
        else if flt.openKey then (.error (.sign (.cas .eio)), files)
        else
          let made (data : Bytes) : HostFiles := files.insert path ⟨0o600#32 &&& ~~~umask, data⟩
          if (keyText seed).length ≥ KEY_BUF then (.error (.sign (.cas .err)), unlinkKey flt.unlink path (made []))
          else
            match flt.write with
            | some k => (.error (.sign (.cas .eio)), unlinkKey flt.unlink path (made ((keyText seed).take k)))
            | none =>
              if flt.fsync ∨ flt.close then (.error (.sign (.cas .eio)), unlinkKey flt.unlink path (made (keyText seed)))
              else (.ok pk, made (keyText seed))

/-! ## Loading -/

/-- What fails, of what `cas_sign_key_load` calls. -/
structure KeyloadFaults where
  stat : Bool
  openKey : Bool
  /-- `fgets`, of the first and the second line -/
  readLine : Nat → Bool

/-- `sizeof(magic)` and `sizeof(hex)` -/
def KEY_MAGIC_BUF : Nat := 64
def KEY_HEX_BUF : Nat := 128

/-- What `fgets` leaves in a buffer, up to the first `\r` or `\n`. -/
def keyLine (size : Nat) (s : Bytes) : Bytes :=
  (CStr.ofBuf (s.take (fgetsLen size s))).bytes.takeWhile fun c => c != 13 && c != 10

/-- The seed in the contents of a key file. -/
def keySeed (readLine : Nat → Bool) (s : Bytes) : Option Bytes :=
  if s = [] ∨ readLine 0 = true then none
  else if keyLine KEY_MAGIC_BUF s ≠ CAS_SIGN_KEY_MAGIC then none
  else
    let rest := s.drop (fgetsLen KEY_MAGIC_BUF s)
    if rest = [] ∨ readLine 1 = true then none
    else if (keyLine KEY_HEX_BUF rest).length ≠ CAS_HASH_HEX then none
    else casHexDecode (keyLine KEY_HEX_BUF rest)

/-- `cas_sign_key_load`: the secret and the public key. -/
def casSignKeyLoad (backend : Option KeyPair) (flt : KeyloadFaults) (files : HostFiles) (path : Bytes) :
    Except KeyStatus (Bytes × Bytes) :=
  match backend with
  | none => .error .enobackend
  | some keyPair =>
    match files.lookup path with
    | none => .error (.sign (.cas .enotfound))
    | some file =>
      if flt.stat then .error (.sign (.cas .enotfound))
      else if file.mode &&& 0o077#32 ≠ 0 then .error .ekeyperm
      else if flt.openKey then .error (.sign (.cas .enotfound))
      else
        match keySeed flt.readLine file.data with
        | none => .error .ekeyform
        | some seed => (keyPair seed).mapError .sign

/-! ## What a generation leaves -/

section
variable (backend : Option KeyPair) (flt : KeygenFaults) (entropy : Option Bytes) (umask : BitVec 32) (files : HostFiles)
  (path : Bytes)

/-- No one but the owner can read it. -/
def HostFile.Private (f : HostFile) : Prop := f.mode &&& 0o077#32 = 0

theorem private_made (umask : BitVec 32) (data : Bytes) : (HostFile.mk (0o600#32 &&& ~~~umask) data).Private := by
  show 0o600#32 &&& ~~~umask &&& 0o077#32 = 0
  have hzero : 0o600#32 &&& 0o077#32 = 0#32 := by decide
  rw [BitVec.and_assoc, BitVec.and_comm (~~~umask), ← BitVec.and_assoc, hzero]
  exact BitVec.zero_and

/-- **What one generation can do**: leave the files, or make one that was not there, which is taken away again after
a failure unless that fails too. -/
inductive Generated : Except KeyStatus Bytes × HostFiles → Prop
  | refused (rc : KeyStatus) : Generated (.error rc, files)
  | failed (rc : KeyStatus) (f : HostFile) (hf : f.Private) (hnew : files.lookup path = none) :
      Generated (.error rc, unlinkKey flt.unlink path (files.insert path f))
  | made (keyPair : KeyPair) (seed sk pk : Bytes) (f : HostFile) (hb : backend = some keyPair)
      (hseed : seed.length = CAS_SIGN_SEED_LEN) (hpair : keyPair seed = .ok (sk, pk)) (hf : f.Private)
      (hdata : f.data = keyText seed) (hnew : files.lookup path = none) : Generated (.ok pk, files.insert path f)

theorem casSignKeyGenerate_cases :
    Generated backend flt files path (casSignKeyGenerate backend flt entropy umask files path) := by
  unfold casSignKeyGenerate
  cases backend with
  | none => exact .refused _
  | some keyPair =>
    simp only []
    cases he : readEntropy entropy with
    | error rc => exact .refused _
    | ok seed =>
      have hseed : seed.length = CAS_SIGN_SEED_LEN := by
        unfold readEntropy at he
        split at he
        · cases he
        · split at he
          · next hlen =>
            obtain rfl := Except.ok.inj he
            exact hlen
          · cases he
      simp only []
      cases hpair : keyPair seed with
      | error rc => exact .refused _
      | ok keys =>
        obtain ⟨sk, pk⟩ := keys
        simp only []
        split
        · exact .refused _
        · next hnone =>
          have hnew : files.lookup path = none := by simpa using hnone
          split
          · exact .refused _
          · split
            · exact .failed _ _ (private_made umask _) hnew
            · split
              · exact .failed _ _ (private_made umask _) hnew
              · split
                · exact .failed _ _ (private_made umask _) hnew
                · exact .made keyPair seed sk pk _ rfl hseed hpair (private_made umask _) rfl hnew

variable {backend flt files path} {r : Except KeyStatus Bytes × HostFiles} (h : Generated backend flt files path r)

include h

theorem Generated.other (p : Bytes) (hne : p ≠ path) : r.2.lookup p = files.lookup p := by
  cases h with
  | refused rc => rfl
  | failed rc f hf hnew =>
    unfold unlinkKey
    split
    · exact AList.lookup_insert_ne hne
    · rw [AList.lookup_erase_ne hne, AList.lookup_insert_ne hne]
  | made keyPair seed sk pk f hb hseed hpair hf hdata hnew => exact AList.lookup_insert_ne hne

/-- A file that is there stays as it is. -/
theorem Generated.kept (p : Bytes) (f : HostFile) (hf : files.lookup p = some f) : r.2.lookup p = some f := by
  by_cases hp : p = path
  · subst hp
    cases h with
    | refused rc => exact hf
    | failed rc f' hf' hnew =>
      rw [hnew] at hf
      cases hf
    | made keyPair seed sk pk f' hb hseed hpair hf' hdata hnew =>
      rw [hnew] at hf
      cases hf
  · rw [h.other p hp]
    exact hf

theorem Generated.mode (f : HostFile) (hf : r.2.lookup path = some f) : files.lookup path = some f ∨ f.Private := by
  cases h with
  | refused rc => exact .inl hf
  | failed rc f' hf' hnew =>
    unfold unlinkKey at hf
    split at hf
    · rw [AList.lookup_insert] at hf
      obtain rfl := Option.some.inj hf
      exact .inr hf'
    · rw [AList.lookup_erase] at hf
      cases hf
  | made keyPair seed sk pk f' hb hseed hpair hf' hdata hnew =>
    rw [AList.lookup_insert] at hf
    obtain rfl := Option.some.inj hf
    exact .inr hf'

/-- A failure that can clean up leaves nothing. -/
theorem Generated.undone (hun : flt.unlink = false) (hfail : ∀ pk, r.1 ≠ .ok pk) (p : Bytes) :
    r.2.lookup p = files.lookup p := by
  cases h with
  | refused rc => rfl
  | failed rc f hf hnew =>
    unfold unlinkKey
    rw [hun, if_neg Bool.noConfusion]
    by_cases hp : p = path
    · subst hp
      rw [AList.lookup_erase, hnew]
    · rw [AList.lookup_erase_ne hp, AList.lookup_insert_ne hp]
  | made keyPair seed sk pk f hb hseed hpair hf hdata hnew => exact absurd rfl (hfail pk)

end

/-! ## A key is loaded again -/

def keyloadNoFaults : KeyloadFaults := ⟨false, false, fun _ => false⟩

/-- A line without a NUL and an end of line, up to its newline. -/
theorem keyLine_line (size : Nat) (line rest : Bytes) (hl : line.length + 1 < size)
    (hc : ∀ c ∈ line, c ≠ 0 ∧ c ≠ 10 ∧ c ≠ 13) :
    keyLine size (line ++ 10 :: rest) = line ∧
      (line ++ 10 :: rest).drop (fgetsLen size (line ++ 10 :: rest)) = rest := by
  have h10 : (10 : UInt8) ∉ line := fun hm => (hc 10 hm).2.1 rfl
  have h0 : (0 : UInt8) ∉ line ++ [10] := by
    intro hm
    rcases List.mem_append.mp hm with hm | hm
    · exact (hc 0 hm).1 rfl
    · simp at hm
  have hlen : fgetsLen size (line ++ 10 :: rest) = line.length + 1 := by
    unfold fgetsLen
    rw [lineLen_body line rest h10]
    show min (size - 1) (line.length + 1) = _
    omega
  have hsplit : line ++ 10 :: rest = (line ++ [10]) ++ rest := by simp
  have hlen' : line.length + 1 = (line ++ [10]).length := by simp
  constructor
  · unfold keyLine
    rw [hlen, hsplit, hlen', List.take_left]
    show ((line ++ [10]).takeWhile (· != 0)).takeWhile _ = line
    rw [takeWhile_ne _ h0, List.takeWhile_append_of_pos]
    · simp
    · intro c hm
      obtain ⟨-, hc10, hc13⟩ := hc c hm
      simp [hc10, hc13]
  · rw [hlen, hsplit, hlen', List.drop_left]

theorem toHex_ne (seed : Bytes) : ∀ c ∈ toHex seed, c ≠ 0 ∧ c ≠ 10 ∧ c ≠ 13 := by
  intro c hc
  have hlower := toHex_lower seed c hc
  refine ⟨?_, ?_, ?_⟩ <;> rintro rfl <;> revert hlower <;> decide

/-- **What is written is read**: the seed of a key file. -/
theorem keySeed_keyText (seed : Bytes) (hlen : seed.length = CAS_SIGN_SEED_LEN) :
    keySeed (fun _ => false) (keyText seed) = some seed := by
  have hmagic := keyLine_line KEY_MAGIC_BUF CAS_SIGN_KEY_MAGIC (toHex seed ++ [10]) (by decide)
    (by
      have h : CAS_SIGN_KEY_MAGIC.all (fun c => c != 0 && c != 10 && c != 13) = true := by decide
      intro c hc
      simpa [and_assoc] using List.all_eq_true.mp h c hc)
  have hhex : (toHex seed).length = CAS_HASH_HEX := by
    rw [length_toHex, hlen]
    rfl
  have hline := keyLine_line KEY_HEX_BUF (toHex seed) [] (by rw [hhex]; decide) (toHex_ne seed)
  unfold keySeed
  rw [if_neg (by simp [keyText]), if_neg (by rw [keyText, hmagic.1]; simp)]
  simp only []
  rw [show (keyText seed).drop (fgetsLen KEY_MAGIC_BUF (keyText seed)) = toHex seed ++ [10] from hmagic.2, hline.1,
    if_neg (by simp), if_neg (by rw [hhex]; simp), casHexDecode_toHex]

/-- A key that was generated is loaded. -/
theorem Generated.loads {backend : Option KeyPair} {flt : KeygenFaults} {files : HostFiles} {path pk : Bytes}
    {r : Except KeyStatus Bytes × HostFiles} (h : Generated backend flt files path r) (hok : r.1 = .ok pk) :
    ∃ sk, casSignKeyLoad backend keyloadNoFaults r.2 path = .ok (sk, pk) := by
  cases h with
  | refused rc => cases hok
  | failed rc f hf hnew => cases hok
  | made keyPair seed sk pk' f hb hseed hpair hf hdata hnew =>
    obtain rfl := Except.ok.inj hok
    refine ⟨sk, ?_⟩
    unfold casSignKeyLoad
    rw [hb, AList.lookup_insert]
    simp only []
    rw [if_neg (by simp [keyloadNoFaults]), if_neg (show ¬ f.mode &&& 0o077#32 ≠ 0 from not_not.mpr hf), if_neg (by simp [keyloadNoFaults]), hdata,
      show keyloadNoFaults.readLine = fun _ => false from rfl, keySeed_keyText seed hseed]
    simp only []
    rw [hpair]
    rfl

/-! ## One key after another -/

/-- A call of `cas_sign_key_generate`. -/
structure KeygenCall where
  flt : KeygenFaults
  entropy : Option Bytes
  umask : BitVec 32
  path : Bytes

/-- The calls one after another: what each returned, and the files then. -/
def keygenAll (backend : Option KeyPair) : List KeygenCall → HostFiles → List (Bytes × Except KeyStatus Bytes) × HostFiles
  | [], files => ([], files)
  | c :: calls, files =>
    let r := casSignKeyGenerate backend c.flt c.entropy c.umask files c.path
    let rest := keygenAll backend calls r.2
    ((c.path, r.1) :: rest.1, rest.2)

theorem keygenAll_kept (backend : Option KeyPair) (calls : List KeygenCall) (files : HostFiles) (p : Bytes)
    (f : HostFile) (hf : files.lookup p = some f) : (keygenAll backend calls files).2.lookup p = some f := by
  induction calls generalizing files with
  | nil => exact hf
  | cons c calls ih =>
    exact ih _ ((casSignKeyGenerate_cases backend c.flt c.entropy c.umask files c.path).kept p f hf)

theorem casSignKeyLoad_congr (backend : Option KeyPair) (flt : KeyloadFaults) {files files' : HostFiles} {path : Bytes}
    (h : files'.lookup path = files.lookup path) :
    casSignKeyLoad backend flt files' path = casSignKeyLoad backend flt files path := by
  unfold casSignKeyLoad
  rw [h]

theorem casSignKeyLoad_found {backend : Option KeyPair} {flt : KeyloadFaults} {files : HostFiles} {path : Bytes}
    {keys : Bytes × Bytes} (h : casSignKeyLoad backend flt files path = .ok keys) : ∃ f, files.lookup path = some f := by
  unfold casSignKeyLoad at h
  cases hb : backend with
  | none =>
    rw [hb] at h
    cases h
  | some keyPair =>
    rw [hb] at h
    cases hf : files.lookup path with
    | none =>
      rw [hf] at h
      cases h
    | some f => exact ⟨f, rfl⟩

/-- **Keys are never lost to other keys.**  Over any calls that generate keys, with any paths and whatever fails: a file
that was there is as it was, a file that is new can be read by its owner alone, a call that fails and can clean up
leaves the files as they were, and every key that was generated is loaded as it was returned. -/
theorem key_file_kept (backend : Option KeyPair) (calls : List KeygenCall) (files : HostFiles) :
    (∀ p f, files.lookup p = some f → (keygenAll backend calls files).2.lookup p = some f) ∧
    (∀ p f, (keygenAll backend calls files).2.lookup p = some f → files.lookup p = some f ∨ f.Private) ∧
    (∀ c : KeygenCall, c.flt.unlink = false →
      (∀ pk, (casSignKeyGenerate backend c.flt c.entropy c.umask files c.path).1 ≠ .ok pk) →
      ∀ p, (casSignKeyGenerate backend c.flt c.entropy c.umask files c.path).2.lookup p = files.lookup p) ∧
    ∀ path pk, (path, .ok pk) ∈ (keygenAll backend calls files).1 →
      ∃ sk, casSignKeyLoad backend keyloadNoFaults (keygenAll backend calls files).2 path = .ok (sk, pk) := by
  refine ⟨keygenAll_kept backend calls files, ?_, fun c hun hfail p =>
    (casSignKeyGenerate_cases backend c.flt c.entropy c.umask files c.path).undone hun hfail p, ?_⟩
  · induction calls generalizing files with
    | nil => exact fun p f hf => .inl hf
    | cons c calls ih =>
      intro p f hf
      have hone := casSignKeyGenerate_cases backend c.flt c.entropy c.umask files c.path
      rcases ih _ p f hf with hf | hf
      · by_cases hp : p = c.path
        · subst hp
          exact hone.mode f hf
        · rw [hone.other p hp] at hf
          exact .inl hf
      · exact .inr hf
  · induction calls generalizing files with
    | nil => exact fun _ _ hm => nomatch hm
    | cons c calls ih =>
      intro path pk hm
      rcases List.mem_cons.mp hm with heq | hm
      · obtain ⟨rfl, hok⟩ := Prod.mk.inj heq
        have hone := casSignKeyGenerate_cases backend c.flt c.entropy c.umask files c.path
        obtain ⟨sk, hload⟩ := hone.loads hok.symm
        obtain ⟨f, hf⟩ := casSignKeyLoad_found hload
        refine ⟨sk, ?_⟩
        rw [← hload]
        exact casSignKeyLoad_congr _ _ ((keygenAll_kept backend calls _ _ f hf).trans hf.symm)
      · exact ih _ path pk hm

end Smolvfs
