import Smolvfs.Store
import Smolvfs.Lib.Directory

/-!
# The object map

`struct cas_omap` of `cas-omap.c`: a map from 64-bit ids to hashes, in pages of
256 slots.  The directory lists the pages by number; a page is read from the
store the first time it is needed and stays cached, dirty once it is changed.
An empty slot is 32 zero octets.  A page's population is counted twice, in the
page and in its directory entry, both as a `uint16_t`.

* `casOmapPut`, `casOmapDel`, `casOmapGet`: one slot of one page;
* `casOmapStore`: the dirty pages as `opage` objects, then the directory as an
  `omap` object, whose address is the root;
* `casOmapLoad`: the directory of a root, every page yet to be read.
-/

namespace Smolvfs

open Octets Search

def CAS_OMAP_PAGE_SLOTS : Nat := 256
def CAS_OMAP_PAGE_SIZE : Nat := CAS_OMAP_PAGE_SLOTS * CAS_HASH_LEN
def OMAP_DIR_MAGIC : Bytes := (lit ['O', 'M', 'v', '1']).bytes
def OMAP_DIR_HEADER_LEN : Nat := 8
def OMAP_DIR_ENTRY_LEN : Nat := 48

def tOpage : CStr := lit ['o', 'p', 'a', 'g', 'e']
def tOmap : CStr := lit ['o', 'm', 'a', 'p']

/-! ## State -/

/-- `unsigned char [CAS_HASH_LEN]` -/
abbrev OmapSlot := {b : Bytes // b.length = CAS_HASH_LEN}

/-- `zero_hash` -/
def zeroSlot : OmapSlot := ⟨List.replicate CAS_HASH_LEN 0, List.length_replicate⟩

/-- `memcpy` of `CAS_HASH_LEN` octets at an offset. -/
def omapSlotAt (data : Bytes) (off : Nat) : OmapSlot :=
  ⟨(slice data off CAS_HASH_LEN ++ zeroSlot.1).take CAS_HASH_LEN, by simp [zeroSlot]⟩

/-- `cas_hex_decode` of a hash into a slot. -/
def slotOfHash (hash : Bytes) (dst : OmapSlot) : OmapSlot :=
  match casHexDecode hash with
  | some bin => omapSlotAt bin 0
  | none => dst

/-- `slots` of a page -/
abbrev OmapSlots := Fin CAS_OMAP_PAGE_SLOTS → OmapSlot

def emptySlots : OmapSlots := fun _ => zeroSlot

/-- The page as `cas_put_object` gets it: slot after slot. -/
def pageBytes (slots : OmapSlots) : Bytes := (List.finRange CAS_OMAP_PAGE_SLOTS).flatMap fun s => (slots s).1

/-- `memcpy` of the page's data. -/
def pageSlots (data : Bytes) : OmapSlots := fun s => omapSlotAt data (s.1 * CAS_HASH_LEN)

/-- `struct omap_page` -/
structure OmapPage where
  slots : OmapSlots
  popCount : Nat
  dirty : Bool

/-- A page from `calloc`. -/
def newPage : OmapPage := ⟨emptySlots, 0, false⟩

/-- `struct omap_dir_entry` -/
structure OmapDirEntry where
  pageNum : Nat
  pageHash : OmapSlot
  popCount : Nat
  cached : Option OmapPage

/-- `struct cas_omap`, besides the store -/
structure Omap where
  dir : List OmapDirEntry
  dirCap : Nat

/-- `cas_omap_new` -/
def casOmapNew : Omap := ⟨[], 0⟩

/-- `cas_omap_clear` -/
def casOmapClear (_om : Omap) : Omap := ⟨[], 0⟩

def Omap.setEntry (om : Omap) (pos : Nat) (de : OmapDirEntry) : Omap := { om with dir := om.dir.set pos de }

/-- `++` and `--` of a `uint16_t` -/
def incr16 (n : Nat) : Nat := (n + 1) % 2 ^ 16
def decr16 (n : Nat) : Nat := (n + (2 ^ 16 - 1)) % 2 ^ 16

/-! ## Directory search -/

/-- `id / CAS_OMAP_PAGE_SLOTS` -/
def idPage (id : UInt64) : Nat := id.toNat / CAS_OMAP_PAGE_SLOTS

/-- `id % CAS_OMAP_PAGE_SLOTS` -/
def idSlot (id : UInt64) : Fin CAS_OMAP_PAGE_SLOTS := ⟨id.toNat % CAS_OMAP_PAGE_SLOTS, Nat.mod_lt _ (by decide)⟩

/-- `page_num * CAS_OMAP_PAGE_SLOTS + s` -/
def slotId (pageNum : Nat) (s : Fin CAS_OMAP_PAGE_SLOTS) : UInt64 :=
  UInt64.ofNat (pageNum * CAS_OMAP_PAGE_SLOTS + s.1)

/-- `dir_find`: the first entry that is not before the page. -/
def omapDirFind (dir : List OmapDirEntry) (pageNum : Nat) : Nat :=
  lowerBound (fun i => dir[i]?.any fun de => decide (de.pageNum < pageNum)) (dir.length + 1) 0 dir.length

/-- The entry of a page: `dir[dir_find(page_num)]`, when it is there and of that page. -/
def dirEntry (dir : List OmapDirEntry) (pageNum : Nat) : Option OmapDirEntry :=
  dir[omapDirFind dir pageNum]?.filter fun de => decide (de.pageNum = pageNum)

/-- `dir_insert`: the directory with an entry for the page, and the entry.  A capacity that is no longer
an `int` is one `realloc` cannot give. -/
def dirInsert (om : Omap) (pageNum : Nat) : Except Status (Omap × OmapDirEntry) :=
  match dirEntry om.dir pageNum with
  | some de => .ok (om, de)
  | none =>
    let de : OmapDirEntry := ⟨pageNum, zeroSlot, 0, none⟩
    let dir := om.dir.insertIdx (omapDirFind om.dir pageNum) de
    if om.dir.length < om.dirCap then .ok (⟨dir, om.dirCap⟩, de)
    else
      let newcap := if om.dirCap = 0 then 16 else om.dirCap * 2
      if newcap < 2 ^ 31 then .ok (⟨dir, newcap⟩, de) else .error .enomem

/-! ## Page loading -/

/-- `page_load`: the entry's page, cached from now on. -/
def pageLoad (cs : Codecs) (flt : Faults) (st : Store) (de : OmapDirEntry) : Except Status OmapPage :=
  match de.cached with
  | some pg => .ok pg
  | none =>
    match casOpenObject cs flt st (toHex de.pageHash.1) with
    | .error rc => .error rc
    | .ok (type, data) =>
      if type ≠ tOpage ∨ data.length ≠ CAS_OMAP_PAGE_SIZE then .error .etype
      else .ok ⟨pageSlots data, de.popCount, false⟩

/-- `page_ensure`: the entry of an id's page and the page, from the store or new. -/
def pageEnsure (cs : Codecs) (flt : Faults) (st : Store) (om : Omap) (id : UInt64) :
    Omap × Except Status (OmapDirEntry × OmapPage) :=
  match dirInsert om (idPage id) with
  | .error rc => (om, .error rc)
  | .ok (om, de) =>
    if de.cached = none ∧ de.pageHash = zeroSlot then (om, .ok (de, newPage))
    else (om, (pageLoad cs flt st de).map fun pg => (de, pg))

/-! ## Lookup -/

/-- `cas_omap_get` -/
def casOmapGet (cs : Codecs) (flt : Faults) (st : Store) (om : Omap) (id : UInt64) : Except Status Bytes × Omap :=
  match dirEntry om.dir (idPage id) with
  | none => (.error .enotfound, om)
  | some de =>
    match pageLoad cs flt st de with
    | .error rc => (.error rc, om)
    | .ok pg =>
      let om := om.setEntry (omapDirFind om.dir (idPage id)) { de with cached := some pg }
      if pg.slots (idSlot id) = zeroSlot then (.error .enotfound, om)
      else (.ok (toHex (pg.slots (idSlot id)).1), om)

/-! ## Mutation -/

/-- `cas_omap_put` -/
def casOmapPut (cs : Codecs) (flt : Faults) (st : Store) (om : Omap) (id : UInt64) (hash : Bytes) : Status × Omap :=
  if validHash hash = false then (.err, om)
  else
    let pos := omapDirFind om.dir (idPage id)
    match pageEnsure cs flt st om id with
    | (om, .error rc) => (rc, om)
    | (om, .ok (de, pg)) =>
      let slot := idSlot id
      let wasEmpty := decide (pg.slots slot = zeroSlot)
      let count n := if wasEmpty then incr16 n else n
      let pg := { pg with
        slots := Function.update pg.slots slot (slotOfHash hash (pg.slots slot))
        popCount := count pg.popCount
        dirty := true }
      (.ok, om.setEntry pos { de with popCount := count de.popCount, cached := some pg })

/-- `cas_omap_del` -/
def casOmapDel (cs : Codecs) (flt : Faults) (st : Store) (om : Omap) (id : UInt64) : Status × Omap :=
  match dirEntry om.dir (idPage id) with
  | none => (.enotfound, om)
  | some de =>
    match pageLoad cs flt st de with
    | .error rc => (rc, om)
    | .ok pg =>
      let pos := omapDirFind om.dir (idPage id)
      let slot := idSlot id
      if pg.slots slot = zeroSlot then (.enotfound, om.setEntry pos { de with cached := some pg })
      else
        let pg := { pg with
          slots := Function.update pg.slots slot zeroSlot
          popCount := decr16 pg.popCount
          dirty := true }
        (.ok, om.setEntry pos { de with popCount := decr16 de.popCount, cached := some pg })

/-! ## Snapshots -/

/-- The pages of `cas_omap_store`: every dirty one is put, until a put fails. -/
def storePages (flt : Faults) (now : Int) : Store → List OmapDirEntry → Status × Store × List OmapDirEntry
  | st, [] => (.ok, st, [])
  | st, de :: rest =>
    match de.cached.filter fun pg => pg.dirty with
    | none =>
      let (rc, st, rest) := storePages flt now st rest
      (rc, st, de :: rest)
    | some pg =>
      match casPutObject flt st tOpage (pageBytes pg.slots) now with
      | .error rc => (rc, st, de :: rest)
      | .ok (st, h) =>
        let de : OmapDirEntry := { de with
          pageHash := slotOfHash h de.pageHash
          popCount := pg.popCount
          cached := some { pg with dirty := false } }
        let (rc, st, rest) := storePages flt now st rest
        (rc, st, de :: rest)

/-- A directory entry in the root object. -/
def dirRow (de : OmapDirEntry) : Bytes :=
  storeLe 8 de.pageNum ++ de.pageHash.1 ++ storeLe 2 de.popCount ++ List.replicate 6 0

/-- The root object: the entries that have something mapped. -/
def dirBytes (dir : List OmapDirEntry) : Bytes :=
  let live := dir.filter fun de => decide (0 < de.popCount)
  OMAP_DIR_MAGIC ++ storeLe 4 live.length ++ live.flatMap dirRow

/-- `cas_omap_store` -/
def casOmapStore (flt : Faults) (st : Store) (om : Omap) (now : Int) : Except Status Bytes × Store × Omap :=
  match storePages flt now st om.dir with
  | (.ok, st, dir) =>
    match casPutObject flt st tOmap (dirBytes dir) now with
    | .error rc => (.error rc, st, { om with dir := dir })
    | .ok (st, root) => (.ok root, st, { om with dir := dir })
  | (rc, st, dir) => (.error rc, st, { om with dir := dir })

/-- The entry at an offset of a root object. -/
def loadRow (data : Bytes) (off : Nat) : OmapDirEntry where
  pageNum := loadLe (slice data off 8)
  pageHash := omapSlotAt data (off + 8)
  popCount := loadLe (slice data (off + 40) 2)
  cached := none

/-- `cas_omap_load`.  A directory of more entries than an `int` counts is one `calloc` cannot give. -/
def casOmapLoad (cs : Codecs) (flt : Faults) (st : Store) (om : Omap) (root : Bytes) : Status × Omap :=
  match casOpenObject cs flt st root with
  | .error rc => (rc, om)
  | .ok (type, data) =>
    if type ≠ tOmap ∨ data.length < OMAP_DIR_HEADER_LEN then (.etype, om)
    else if slice data 0 4 ≠ OMAP_DIR_MAGIC then (.err, om)
    else
      let n := loadLe (slice data 4 4)
      if data.length ≠ OMAP_DIR_HEADER_LEN + n * OMAP_DIR_ENTRY_LEN then (.err, om)
      else if 2 ^ 31 ≤ n then (.enomem, casOmapNew)
      else
        (.ok, ⟨(List.range n).map fun i => loadRow data (OMAP_DIR_HEADER_LEN + i * OMAP_DIR_ENTRY_LEN), n⟩)

/-! ## Iteration and statistics -/

/-- `cas_omap_count` -/
def casOmapCount (om : Omap) : UInt64 := UInt64.ofNat (om.dir.map fun de => de.popCount).sum

/-- `cas_omap_page_count` -/
def casOmapPageCount (om : Omap) : Nat := om.dir.countP fun de => decide (0 < de.popCount)

section
variable {σ : Type} (fn : UInt64 → Bytes → σ → Bool × σ)

/-- The slots of one page given to the callback, which says whether to stop. -/
def foreachSlots (pageNum : Nat) (slots : OmapSlots) : List (Fin CAS_OMAP_PAGE_SLOTS) → σ → Bool × σ
  | [], ctx => (false, ctx)
  | s :: rest, ctx =>
    if slots s = zeroSlot then foreachSlots pageNum slots rest ctx
    else
      match fn (slotId pageNum s) (toHex (slots s).1) ctx with
      | (true, ctx) => (true, ctx)
      | (false, ctx) => foreachSlots pageNum slots rest ctx

def foreachEntries (cs : Codecs) (flt : Faults) (st : Store) :
    List OmapDirEntry → σ → Status × List OmapDirEntry × σ
  | [], ctx => (.ok, [], ctx)
  | de :: rest, ctx =>
    if de.popCount = 0 then
      let (rc, rest, ctx) := foreachEntries cs flt st rest ctx
      (rc, de :: rest, ctx)
    else
      match pageLoad cs flt st de with
      | .error rc => (rc, de :: rest, ctx)
      | .ok pg =>
        let de := { de with cached := some pg }
        match foreachSlots fn de.pageNum pg.slots (List.finRange CAS_OMAP_PAGE_SLOTS) ctx with
        | (true, ctx) => (.ok, de :: rest, ctx)
        | (false, ctx) =>
          let (rc, rest, ctx) := foreachEntries cs flt st rest ctx
          (rc, de :: rest, ctx)

/-- `cas_omap_foreach` -/
def casOmapForeach (cs : Codecs) (flt : Faults) (st : Store) (om : Omap) (ctx : σ) : Status × Omap × σ :=
  let (rc, dir, ctx) := foreachEntries fn cs flt st om.dir ctx
  (rc, { om with dir := dir }, ctx)

end

end Smolvfs
