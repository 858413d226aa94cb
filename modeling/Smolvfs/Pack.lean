import Smolvfs.Codec
import Smolvfs.Lib.Search

/-!
# Packfiles: opening and reading

`cas_pack_open`, `find_entry`, `pack_raw_region`, `cas_pack_lookup`,
`cas_pack_exists` and `cas_pack_foreach` of `cas-pack.c` over the octets of the
mapped file.  Offsets and sizes are 64-bit (`% 2 ^ 64`), as the file may hold
anything.  An access past the mapping is undefined in C; here it reads zeros
(`Pack.read`).
-/

namespace Smolvfs

open Octets Search

/-! ## Opening -/

/-- `index_size` for a count -/
def packIndexSize (count : Nat) : Nat := count * CAS_PACK_BLOCK % 2 ^ 64

/-- `tail_size`: the index and the footer -/
def packTailSize (count : Nat) : Nat := (packIndexSize count + CAS_PACK_BLOCK) % 2 ^ 64

/-- An open packfile: a mapping whose tail the count fits. -/
structure Pack where
  map : Bytes
  entryCount : Nat
  tail_le : packTailSize entryCount ≤ map.length
  deriving DecidableEq

/-- Where the index region starts. -/
def Pack.index (p : Pack) : Nat := p.map.length - packTailSize p.entryCount

/-- `len` octets of the mapping at `off`. -/
def Pack.read (p : Pack) (off len : Nat) : Bytes :=
  slice p.map off len ++ List.replicate (len - (slice p.map off len).length) 0

theorem Pack.length_read (p : Pack) (off len : Nat) : (p.read off len).length = len := by
  have := length_slice_le p.map off len
  unfold Pack.read
  rw [List.length_append, List.length_replicate]
  omega

/-- A count that `cas_pack_open` goes on with. -/
theorem tail_fits (map : Bytes) (count : Nat) (h : ¬ packTailSize count > map.length) :
    packTailSize count ≤ map.length := Nat.not_lt.mp h

/-- `cas_pack_open` on the contents of the file at the path; `fails` says that opening, mapping or
allocating the handle fails. -/
def casPackOpen (fails : Bool) (file : Option Bytes) : Option Pack :=
  match file with
  | none => none
  | some map =>
    if fails then none
    else if map.length < CAS_PACK_BLOCK then none
    else
      let ft := slice map (map.length - CAS_PACK_BLOCK) CAS_PACK_BLOCK
      if slice ft 0 CAS_PACK_MAGIC_LEN ≠ CAS_PACK_FOOTER_MAGIC_V1 then none
      else
        let count := loadLe (slice ft 8 8)
        if h : packTailSize count > map.length then none
        else
          let index := map.length - packTailSize count
          let checkLen := (packIndexSize count + 16) % 2 ^ 64
          if casDigest (slice map index checkLen) ≠ slice ft 16 CAS_HASH_LEN then none
          else some ⟨map, count, tail_fits map count h⟩

/-! ## Entries -/

/-- Where entry `i` starts: the pointer `pack->index + i * CAS_PACK_BLOCK`. -/
def Pack.entry (p : Pack) (i : Nat) : Nat := p.index + i * CAS_PACK_BLOCK % 2 ^ 64

def Pack.entryHash (p : Pack) (i : Nat) : Bytes := p.read (p.entry i) CAS_HASH_LEN

def Pack.entryOffset (p : Pack) (i : Nat) : Nat := loadLe (p.read (p.entry i + 32) 8)

def Pack.entryStored (p : Pack) (i : Nat) : Nat := loadLe (p.read (p.entry i + 40) 8)

/-- `find_entry`: the number of the entry found. -/
def findEntry (p : Pack) (binHash : Bytes) : Option Nat :=
  bsearch (fun i => memcmp (p.entryHash i) binHash) (p.entryCount + 1) 0 p.entryCount

/-- `pack_raw_region`: the data region and a copy of the trailer. -/
def packRawRegion (p : Pack) (binHash : Bytes) : Except Status (Bytes × Bytes) :=
  match findEntry p binHash with
  | none => .error .enotfound
  | some e =>
    let trailerOff := p.entryOffset e
    if (trailerOff + CAS_PACK_BLOCK) % 2 ^ 64 > p.map.length then .error .err
    else
      let tr := p.read trailerOff CAS_PACK_BLOCK
      match packParseHeader (trailerHeader tr) with
      | none => .error .err
      | some (_, contentLen) =>
        let stored := p.entryStored e
        let rsize := if stored ≠ 0 then stored else contentLen
        if rsize > trailerOff then .error .err
        else .ok (p.read (trailerOff - rsize) rsize, tr)

/-- Which of the two trailer magics: `some framed`. -/
def trailerFramed (tr : Bytes) : Option Bool :=
  if trailerMagic tr = CAS_PACK_TRAILER_MAGIC then some false
  else if trailerMagic tr = CAS_PACK_TRAILER_MAGIC_V2 then some true
  else none

/-- The length of an entry's region, as both readers of an entry work it out. -/
def Pack.regionSize (p : Pack) (e contentLen : Nat) : Nat :=
  if p.entryStored e ≠ 0 then p.entryStored e else contentLen

theorem packRawRegion_ok (p : Pack) (binHash src tr : Bytes) (h : packRawRegion p binHash = .ok (src, tr)) :
    ∃ e type n, findEntry p binHash = some e ∧
      ¬ (p.entryOffset e + CAS_PACK_BLOCK) % 2 ^ 64 > p.map.length ∧
      tr = p.read (p.entryOffset e) CAS_PACK_BLOCK ∧
      packParseHeader (trailerHeader tr) = some (type, n) ∧ ¬ p.regionSize e n > p.entryOffset e ∧
      src = p.read (p.entryOffset e - p.regionSize e n) (p.regionSize e n) := by
  unfold packRawRegion at h
  cases hf : findEntry p binHash with
  | none => simp [hf] at h
  | some e =>
    simp only [hf] at h
    split at h
    · cases h
    · next hoff =>
      cases hp : packParseHeader (trailerHeader (p.read (p.entryOffset e) CAS_PACK_BLOCK)) with
      | none => simp [hp] at h
      | some th =>
        obtain ⟨type, n⟩ := th
        simp only [hp] at h
        by_cases hr : p.regionSize e n > p.entryOffset e
        · rw [if_pos (by simpa [Pack.regionSize] using hr)] at h
          cases h
        · rw [if_neg (by simpa [Pack.regionSize] using hr)] at h
          obtain ⟨rfl, rfl⟩ := Prod.mk.inj (Except.ok.inj h)
          exact ⟨e, type, n, rfl, hoff, rfl, hp, hr, rfl⟩

theorem trailerFramed_eq (tr : Bytes) (framed : Bool) (h : trailerFramed tr = some framed) :
    (trailerMagic tr == CAS_PACK_TRAILER_MAGIC_V2) = framed := by
  unfold trailerFramed at h
  split at h
  · next h1 =>
    obtain rfl := Option.some.inj h
    rw [h1]
    decide
  · split at h
    · next h2 =>
      obtain rfl := Option.some.inj h
      rw [h2]
      decide
    · cases h

/-- `cas_pack_lookup`: the type and the plaintext.  `noBuf` as for `casCodecRegionDecode`. -/
def casPackLookup (cs : Codecs) (noBuf : Bool) (p : Pack) (hash : Bytes) :
    Except Status (CStr × Bytes) :=
  match casHexDecode hash with
  | none => .error .err
  | some bin =>
    match findEntry p bin with
    | none => .error .enotfound
    | some e =>
      let trailerOff := p.entryOffset e
      if (trailerOff + CAS_PACK_BLOCK) % 2 ^ 64 > p.map.length then .error .err
      else
        let tr := p.read trailerOff CAS_PACK_BLOCK
        match trailerFramed tr with
        | none => .error .err
        | some framed =>
          match packParseHeader (trailerHeader tr) with
          | none => .error .err
          | some (type, contentLen) =>
            let stored := p.entryStored e
            let regionSize := if stored ≠ 0 then stored else contentLen
            if regionSize > trailerOff then .error .err
            else
              let region := p.read (trailerOff - regionSize) regionSize
              (casCodecRegionDecode cs noBuf region framed contentLen).map fun data => (type, data)

/-- `cas_pack_exists` -/
def casPackExists (p : Pack) (hash : Bytes) : Bool :=
  match casHexDecode hash with
  | none => false
  | some bin => (findEntry p bin).isSome

/-- The hashes `cas_pack_foreach` hands out, in order. -/
def casPackHashes (p : Pack) : List Bytes := (List.range p.entryCount).map fun i => toHex (p.entryHash i)

end Smolvfs
