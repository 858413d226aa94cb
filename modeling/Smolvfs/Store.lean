import Mathlib.Data.List.AList
import Smolvfs.Pack

/-!
# The object store

`struct cas` with the depot directory it stands on: the loose files by name
(`basedir/XX/NAME`, in the order a directory scan meets them), the pack files
by path, and the pack handle, which is a mapping of `pack.dat` as it was when it
was opened.

Every system call and allocation that can fail by itself is a `Site`; a run is
given the set of sites that fail (`Faults`).  `noFaults` is a machine on which
nothing fails.
-/

namespace Smolvfs

open Octets

/-! ## Faults -/

inductive Site
  /-- `open`, `fstat`, `mmap`, `unlink` of a loose object -/
  | openObj (hash : Bytes) | statObj (hash : Bytes) | mapObj (hash : Bytes) | unlinkObj (hash : Bytes)
  /-- the buffer an object is decoded into, or compressed into -/
  | bufObj (hash : Bytes) | scratchObj (hash : Bytes)
  /-- `mkstemp`, `write`, `fsync`, `rename` while an object is put -/
  | tempObj (hash : Bytes) | writeObj (hash : Bytes) | syncObj (hash : Bytes) | renameObj (hash : Bytes)
  /-- `opendir` of the depot and of a bucket -/
  | openDepot | openBucket (name : Bytes)
  /-- growing a list or a set that holds `count` hashes -/
  | growList (count : Nat) | growSet (count : Nat)
  /-- opening, creating, filling, flushing and renaming a packfile -/
  | openPack | tempPack | indexPack | writePack (offset : Nat) | writeIndex | checkPack | syncPack
  | renamePack
  /-- the allocations of a directory listing read from object `hash`, of a tree's text and of its htree -/
  | growDir (hash : Bytes) | treeBuf | htreeBuf
  /-- `opendir` of the refs directory; `fopen` of a log, and reading its line `n`; the same of a root -/
  | openRefs | openLog (name : Bytes) | readLog (name : Bytes) (n : Nat)
  | openRoot (name : Bytes) | readRoot (name : Bytes)
  deriving DecidableEq

/-- Which sites fail. -/
abbrev Faults := Site → Bool

def noFaults : Faults := fun _ => false

/-! ## State -/

structure LooseFile where
  data : Bytes
  mtime : Int
  deriving DecidableEq

structure Store where
  loose : AList (fun _ : Bytes => LooseFile)
  file : Bytes → Option Bytes
  pack : Option Pack

/-- A new depot. -/
def Store.empty : Store := ⟨∅, fun _ => none, none⟩

/-- The path of the depot's own pack. -/
def packDat : Bytes := (lit ['p', 'a', 'c', 'k', '.', 'd', 'a', 't']).bytes

/-- A plaintext object as a read gives it. -/
abbrev Object := CStr × Bytes

/-- `cas_reload_pack` -/
def casReloadPack (flt : Faults) (st : Store) : Store :=
  { st with pack := casPackOpen (flt .openPack) (st.file packDat) }

/-! ## Reading -/

/-- The mapping of a loose file, as both openers get it. -/
def looseMap (flt : Faults) (st : Store) (hash : Bytes) : Except Status Bytes :=
  match st.loose.lookup hash with
  | none => .error .enotfound
  | some f =>
    if flt (.openObj hash) then .error .enotfound
    else if flt (.statObj hash) then .error .eio
    else if f.data.length < CAS_PACK_BLOCK ∨ f.data.length > 2 ^ 30 then .error .err
    else if flt (.mapObj hash) then .error .eio
    else .ok f.data

/-- The last block of a mapped object. -/
def objTrailer (map : Bytes) : Bytes := slice map (map.length - CAS_PACK_BLOCK) CAS_PACK_BLOCK

/-- The data region of a mapped object. -/
def objRegion (map : Bytes) : Bytes := slice map 0 (map.length - CAS_PACK_BLOCK)

/-- `cas_open_loose_raw`: the stored region and the trailer. -/
def casOpenLooseRaw (flt : Faults) (st : Store) (hash : Bytes) : Except Status (Bytes × Bytes) :=
  if validHash hash = false then .error .err
  else
    match looseMap flt st hash with
    | .error rc => .error rc
    | .ok map =>
      if trailerFramed (objTrailer map) = none then .error .err
      else .ok (objRegion map, objTrailer map)

/-- Decoding a mapped loose object. -/
def looseDecode (cs : Codecs) (noBuf : Bool) (map : Bytes) : Except Status Object :=
  match trailerFramed (objTrailer map) with
  | none => .error .err
  | some framed =>
    match parseHeader (trailerHeader (objTrailer map)) with
    | none => .error .err
    | some (type, contentLen) =>
      (casCodecRegionDecode cs noBuf (objRegion map) framed contentLen).map fun data => (type, data)

/-- The read of the loose copy. -/
def looseOpen (cs : Codecs) (flt : Faults) (st : Store) (hash : Bytes) : Except Status Object :=
  match looseMap flt st hash with
  | .error rc => .error rc
  | .ok map => looseDecode cs (flt (.bufObj hash)) map

/-- `cas_open_object`: the pack first, the loose file when the pack does not have the hash. -/
def casOpenObject (cs : Codecs) (flt : Faults) (st : Store) (hash : Bytes) : Except Status Object :=
  if validHash hash = false then .error .err
  else
    match st.pack with
    | none => looseOpen cs flt st hash
    | some p =>
      match casPackLookup cs (flt (.bufObj hash)) p hash with
      | .error .enotfound => looseOpen cs flt st hash
      | r => r

/-- The pack handle has the hash. -/
def Store.packed (st : Store) (hash : Bytes) : Bool := st.pack.any fun p => casPackExists p hash

/-- `access(path, F_OK) == 0` -/
def Store.hasLoose (st : Store) (hash : Bytes) : Bool := (st.loose.lookup hash).isSome

/-- `cas_exists` -/
def casExists (st : Store) (hash : Bytes) : Bool :=
  validHash hash && (st.packed hash || st.hasLoose hash)

/-! ## Writing -/

/-- The file at a loose object's path, replaced as `rename` does it. -/
def Store.setLoose (st : Store) (hash : Bytes) (f : LooseFile) : Store :=
  { st with loose := st.loose.insert hash f }

/-- The tail of every put: temp file, write, fsync, rename onto the object's path. -/
def storeFile (flt : Faults) (st : Store) (hash data : Bytes) (now : Int) : Except Status Store :=
  if flt (.tempObj hash) then .error .eio
  else if flt (.writeObj hash) then .error .eio
  else if flt (.syncObj hash) then .error .eio
  else if flt (.renameObj hash) then (if st.hasLoose hash then .ok st else .error .eio)
  else .ok (st.setLoose hash ⟨data, now⟩)

/-- `cas_put_object`: the store afterwards and the address. -/
def casPutObject (flt : Faults) (st : Store) (type : CStr) (data : Bytes) (now : Int) :
    Except Status (Store × Bytes) :=
  match formatHeader type data.length with
  | none => .error .err
  | some hdr =>
    if hdr.length > CAS_PACK_HEADER_LEN then .error .err
    else
      let hash := toHex (digest2 hdr data)
      if st.hasLoose hash || st.packed hash then .ok (st, hash)
      else
        (storeFile flt st hash (data ++ mkTrailer CAS_PACK_TRAILER_MAGIC hdr) now).map fun st' => (st', hash)

/-- `cas_put_object_at` -/
def casPutObjectAt (flt : Faults) (st : Store) (type : CStr) (data hash : Bytes) (now : Int) :
    Except Status Store :=
  if validHash hash = false then .error .err
  else
    match formatHeader type data.length with
    | none => .error .err
    | some hdr =>
      if hdr.length > CAS_PACK_HEADER_LEN then .error .err
      else if st.hasLoose hash || st.packed hash then .ok st
      else storeFile flt st hash (data ++ mkTrailer CAS_PACK_TRAILER_MAGIC hdr) now

/-- `cas_put_precompressed` -/
def casPutPrecompressed (flt : Faults) (st : Store) (type : CStr) (codec : Int) (payload : Bytes)
    (plaintextLen : Nat) (hash : Bytes) (now : Int) : Except Status Store :=
  if validHash hash = false ∨ codec < 0 ∨ codec > 255 then .error .err
  else if codec = CAS_CODEC_NONE ∧ payload.length ≠ plaintextLen then .error .err
  else
    match formatHeader type plaintextLen with
    | none => .error .err
    | some hdr =>
      if hdr.length > CAS_PACK_HEADER_LEN then .error .err
      else if st.hasLoose hash || st.packed hash then .ok st
      else
        storeFile flt st hash
          (UInt8.ofNat codec.toNat :: payload ++ mkTrailer CAS_PACK_TRAILER_MAGIC_V2 hdr) now

/-- `struct cas_compress_config`, within the range `cas_compression_config` lets in. -/
structure CompressConfig where
  enabled : Bool
  minSize : Nat
  minSavingsPct : Nat
  pct_ok : 1 ≤ minSavingsPct ∧ minSavingsPct ≤ 99

/-- `cas_compression_config` -/
def casCompressionConfig (enabled : Bool) (minSize : Nat) (minSavingsPct : Nat) : Option CompressConfig :=
  if h : 1 ≤ minSavingsPct ∧ minSavingsPct ≤ 99 then some ⟨enabled, minSize, minSavingsPct, h⟩ else none

/-- `cas_compression_reset` -/
def casCompressionDefault : CompressConfig := ⟨true, 512, 12, by decide⟩

/-- The payload `cas_put_object_z` keeps, when compressing is tried and wins. -/
def compressWins (cs : Codecs) (cfg : CompressConfig) (noBuf : Bool) (codec : Int) (data : Bytes) :
    Option Bytes :=
  if cfg.enabled ∧ codec ≠ CAS_CODEC_NONE ∧ cfg.minSize ≤ data.length ∧ casCodecCanEncode cs codec = true ∧
      noBuf = false then
    match casCodecEncode cs codec data data.length with
    | .error _ => none
    | .ok payload =>
      let minSavings := data.length * cfg.minSavingsPct % 2 ^ 64 / 100
      if payload.length + 1 < data.length - minSavings then some payload else none
  else none

/-- `cas_put_object_z` -/
def casPutObjectZ (cs : Codecs) (cfg : CompressConfig) (flt : Faults) (st : Store) (type : CStr)
    (codec : Int) (data : Bytes) (now : Int) : Except Status (Store × Bytes) :=
  match casHashObject type data with
  | .error _ => .error .err
  | .ok hash =>
    if casExists st hash then .ok (st, hash)
    else
      match compressWins cs cfg (flt (.scratchObj hash)) codec data with
      | some payload =>
        (casPutPrecompressed flt st type codec payload data.length hash now).map fun st' => (st', hash)
      | none => (casPutObjectAt flt st type data hash now).map fun st' => (st', hash)

/-! ## Listing and removing -/

/-- A name `cas_foreach` hands out: a hash in a bucket it looks into. -/
def foreachLists (flt : Faults) (hash : Bytes) : Bool :=
  validHash hash && hash.head?.any isLowerHex && !flt (.openBucket (hash.take 2))

/-- `cas_foreach`: the names handed out, as long as the callback goes on, and the result then. -/
def casForeach (flt : Faults) (st : Store) : List Bytes × Status :=
  if flt .openDepot then ([], .eio) else (st.loose.keys.filter (foreachLists flt), .ok)

/-- `cas_remove` -/
def casRemove (flt : Faults) (st : Store) (hash : Bytes) : Status × Store :=
  if validHash hash = false then (.err, st)
  else if st.hasLoose hash = false then (.enotfound, st)
  else if flt (.unlinkObj hash) then (.eio, st)
  else (.ok, { st with loose := st.loose.erase hash })

/-- `cas_object_mtime` -/
def casObjectMtime (flt : Faults) (st : Store) (hash : Bytes) : Except Status Int :=
  if validHash hash = false then .error .err
  else
    match st.loose.lookup hash with
    | none => .error .enotfound
    | some f => if flt (.statObj hash) then .error .eio else .ok f.mtime

/-! ## Checking -/

/-- A decoded object against its address. -/
def fsckDigest (type : CStr) (data hash : Bytes) : FsckStatus :=
  if toHex (casDigestObject type data) = hash then .ok else .corrupt

/-- `fsck_packed_object` -/
def fsckPackedObject (cs : Codecs) (flt : Faults) (p : Pack) (hash : Bytes) : FsckStatus :=
  match casPackLookup cs (flt (.bufObj hash)) p hash with
  | .error .enotfound => .ioerr
  | .error .etype => .nocodec
  | .error _ => .corrupt
  | .ok (type, data) => if casTypeIsReencoded type then .reencoded else fsckDigest type data hash

/-- `cas_fsck_object`: the loose copy, or the packed one when there is none. -/
def casFsckObject (cs : Codecs) (flt : Faults) (st : Store) (hash : Bytes) : FsckStatus :=
  if validHash hash = false then .badname
  else
    match casOpenLooseRaw flt st hash, st.pack with
    | .error .enotfound, some p => fsckPackedObject cs flt p hash
    | .error .enotfound, none => .ioerr
    | .error .eio, _ => .ioerr
    | .error _, _ => .corrupt
    | .ok (region, tr), _ =>
      match parseHeader (trailerHeader tr) with
      | none => .corrupt
      | some (type, contentLen) =>
        if casTypeIsReencoded type then .reencoded
        else
          match casCodecRegionDecode cs (flt (.bufObj hash)) region
              (trailerMagic tr == CAS_PACK_TRAILER_MAGIC_V2) contentLen with
          | .error .etype => .nocodec
          | .error .enomem => .ioerr
          | .error _ => .corrupt
          | .ok data => fsckDigest type data hash

end Smolvfs
