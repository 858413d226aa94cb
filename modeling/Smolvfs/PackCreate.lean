import Mathlib.Data.List.Sort
import Smolvfs.Lib.Growth
import Smolvfs.PackImage

/-!
# Building a pack

`pack_create`: the hashes of the depot and of the old pack are collected, sorted
and freed of repeats, the ones the filter rejects are dropped, and each object
left is copied from its loose file or, failing that, from the old pack, a raw one
being compressed where that saves an eighth.  `packCreate_ok` says what a
successful call has done: nothing, or replaced the file by the image of the
entries it made.
-/

namespace Smolvfs

open Octets Growth

/-! ## Collecting -/

/-- `struct hash_list` -/
structure HashList where
  hashes : List Bytes
  cap : Nat

/-- The address a valid hash string spells. -/
def binOf (hash : Bytes) : Bytes := (casHexDecode hash).getD []

/-- `collect_hash` on a valid hash; `none` is the -1 of a list that cannot grow. -/
def collectHash (flt : Faults) (hl : HashList) (hash : Bytes) : Option HashList :=
  if hl.hashes.length ≥ hl.cap then
    if flt (.growList hl.hashes.length) then none
    else some ⟨hl.hashes ++ [binOf hash], if hl.cap = 0 then 64 else hl.cap * 2⟩
  else some ⟨hl.hashes ++ [binOf hash], hl.cap⟩

/-- An iterator with `collect_hash` as its callback: it stops when the callback does. -/
def collectFrom (flt : Faults) : HashList → List Bytes → HashList
  | hl, [] => hl
  | hl, hash :: hashes =>
    match collectHash flt hl hash with
    | none => hl
    | some hl' => collectFrom flt hl' hashes

/-- What `pack_create` collects; neither iterator's result is looked at. -/
def collectHashes (flt : Faults) (st : Store) (old : Option Pack) : List Bytes :=
  let hl := collectFrom flt ⟨[], 0⟩ (casForeach flt st).1
  match old with
  | none => hl.hashes
  | some p => (collectFrom flt hl (casPackHashes p)).hashes

/-- `hash_cmp`, which is `memcmp` on addresses: they have one width (`memcmp_eq_lexcmp`). -/
def hashCmp (a b : Bytes) : Ordering := lexcmp a b

def HashLe (a b : Bytes) : Prop := hashCmp a b ≠ .gt

instance : DecidableRel HashLe := fun a b => inferInstanceAs (Decidable (hashCmp a b ≠ .gt))

/-- The loop that keeps what differs from the last one kept. -/
def uniqueFrom (last : Bytes) : List Bytes → List Bytes
  | [] => []
  | b :: bs => if hashCmp b last ≠ .eq then b :: uniqueFrom b bs else uniqueFrom last bs

/-- `qsort` by `hash_cmp`, then the repeats dropped. -/
def sortUnique (hashes : List Bytes) : List Bytes :=
  match hashes.insertionSort HashLe with
  | [] => []
  | b :: bs => b :: uniqueFrom b bs

/-- `cas_pack_keep_fn`; `none` is a `NULL` filter. -/
abbrev Keep := Option (Bytes → Bool)

def Keep.accepts (keep : Keep) (bin : Bytes) : Bool := keep.all fun k => k (toHex bin)

/-- The addresses that go into the new pack. -/
def keptHashes (flt : Faults) (st : Store) (old : Option Pack) (keep : Keep) : List Bytes :=
  (sortUnique (collectHashes flt st old)).filter keep.accepts

/-! ## Copying -/

/-- The stored form of an object: the loose copy, or the old pack's when there is none. -/
def packSource (flt : Faults) (st : Store) (old : Option Pack) (bin : Bytes) :
    Except Status (Bytes × Bytes) :=
  match casOpenLooseRaw flt st (toHex bin) with
  | .ok src => .ok src
  | .error .enotfound =>
    match old with
    | none => .error .enotfound
    | some p =>
      match packRawRegion p bin with
      | .ok src => .ok src
      | .error _ => .error .enotfound
  | .error rc => .error rc

/-- The codec a raw object is tried with. -/
def packUse (policy : Policy) (codec : Int) (framedIn : Bool) (src : Bytes) : Int :=
  if framedIn = false ∧ src.length > 0 then casCodecPolicy policy codec src else CAS_CODEC_NONE

/-- The compressed form of a raw object, when there is one that saves enough. -/
def packEncode (cs : Codecs) (noBuf : Bool) (use : Int) (src : Bytes) : Option Bytes :=
  if use ≠ CAS_CODEC_NONE ∧ casCodecCanEncode cs use = true ∧ noBuf = false then
    match casCodecEncode cs use src src.length with
    | .error _ => none
    | .ok payload => if payload.length + 1 < src.length - src.length / 8 then some payload else none
  else none

/-- One object of the new pack. -/
def packEntry (cs : Codecs) (flt : Faults) (st : Store) (old : Option Pack) (policy : Policy) (codec : Int)
    (bin : Bytes) : Except Status Emitted :=
  match packSource flt st old bin with
  | .error rc => .error rc
  | .ok (src, tr) =>
    match packParseHeader (trailerHeader tr) with
    | none => .error .err
    | some (_, contentLen) =>
      let use := packUse policy codec (trailerMagic tr == CAS_PACK_TRAILER_MAGIC_V2) src
      match packEncode cs (flt (.scratchObj (toHex bin))) use src with
      | none => .ok ⟨bin, src, tr, contentLen⟩
      | some payload =>
        .ok ⟨bin, UInt8.ofNat use.toNat :: payload, CAS_PACK_TRAILER_MAGIC_V2 ++ trailerHeader tr,
          contentLen⟩

/-- The loop that writes the blocks from `offset` on; a file ends below 2^63 octets. -/
def packEntries (cs : Codecs) (flt : Faults) (st : Store) (old : Option Pack) (policy : Policy)
    (codec : Int) : Nat → List Bytes → Except Status (List Emitted)
  | _, [] => .ok []
  | offset, bin :: bins =>
    match packEntry cs flt st old policy codec bin with
    | .error rc => .error rc
    | .ok e =>
      if flt (.writePack offset) ∨ offset + e.block.length ≥ 2 ^ 63 then .error .eio
      else
        match packEntries cs flt st old policy codec (offset + e.block.length) bins with
        | .error rc => .error rc
        | .ok es => .ok (e :: es)

/-- The file at `path`, replaced as `rename` does it. -/
def Store.setFile (st : Store) (path data : Bytes) : Store :=
  { st with file := fun p => if p = path then some data else st.file p }

/-- `pack_create` -/
def packCreate (cs : Codecs) (flt : Faults) (st : Store) (path : Bytes) (policy : Policy) (codec : Int)
    (keep : Keep) : Status × Store :=
  let old := casPackOpen (flt .openPack) (st.file path)
  let kept := keptHashes flt st old keep
  -- nothing to pack, or nothing the filter keeps: the old pack stays
  if kept = [] then (.ok, st)
  else if flt .tempPack then (.eio, st)
  else if flt .indexPack then (.enomem, st)
  else
    match packEntries cs flt st old policy codec 0 kept with
    | .error rc => (rc, st)
    | .ok es =>
      if flt .writeIndex ∨ (packImage es).length ≥ 2 ^ 63 then (.eio, st)
      else if flt .checkPack then (.enomem, st)
      else if flt .syncPack then (.eio, st)
      else if flt .renamePack then (.eio, st)
      else (.ok, st.setFile path (packImage es))

/-- `cas_pack_create` -/
def casPackCreate (cs : Codecs) (flt : Faults) (st : Store) (path : Bytes) : Status × Store :=
  packCreate cs flt st path .never CAS_CODEC_NONE none

/-- `cas_pack_create_z` -/
def casPackCreateZ (cs : Codecs) (flt : Faults) (st : Store) (path : Bytes) (policy : Policy)
    (codec : Int) : Status × Store :=
  packCreate cs flt st path policy codec none

/-- `cas_pack_create_filtered` -/
def casPackCreateFiltered (cs : Codecs) (flt : Faults) (st : Store) (path : Bytes) (policy : Policy)
    (codec : Int) (keep : Bytes → Bool) : Status × Store :=
  packCreate cs flt st path policy codec (some keep)

/-! ## The list that is collected -/

/-- The list can take an entry after `n` others. -/
def Room (flt : Faults) (n : Nat) : Prop := ∀ m ≤ n, GrowsAt m → flt (.growList m) = false

/-- The capacity is the next of the doubling sequence. -/
def HashList.Doubling (hl : HashList) : Prop := Growth.Doubling hl.hashes.length hl.cap

theorem collectHash_spec (flt : Faults) (hl : HashList) (hash : Bytes) (h : hl.Doubling)
    (hroom : ∀ i < hl.hashes.length, Room flt i) :
    (Room flt hl.hashes.length ∧ ∃ hl', collectHash flt hl hash = some hl' ∧ hl'.Doubling ∧
      hl'.hashes = hl.hashes ++ [binOf hash]) ∨
    (¬ Room flt hl.hashes.length ∧ collectHash flt hl hash = none) := by
  unfold collectHash
  by_cases hf : hl.hashes.length ≥ hl.cap
  · rw [if_pos hf]
    cases hg : flt (.growList hl.hashes.length) with
    | true =>
      refine .inr ⟨?_, by simp⟩
      intro hr
      rw [hr _ (Nat.le_refl _) (h.full_iff.mp hf)] at hg
      cases hg
    | false =>
      refine .inl ⟨?_, _, by simp; rfl, ?_, rfl⟩
      · intro m hm hgm
        rcases Nat.lt_or_eq_of_le hm with hlt | rfl
        · exact hroom m hlt m (Nat.le_refl _) hgm
        · exact hg
      · unfold HashList.Doubling
        rw [List.length_append]
        exact Growth.Doubling.grow h hf
  · rw [if_neg hf]
    refine .inl ⟨?_, _, rfl, ?_, rfl⟩
    · intro m hm hgm
      rcases Nat.lt_or_eq_of_le hm with hlt | rfl
      · exact hroom m hlt m (Nat.le_refl _) hgm
      · exact absurd (h.full_iff.mpr hgm) hf
    · unfold HashList.Doubling
      rw [List.length_append]
      exact Growth.Doubling.push h hf

/-- **The collecting loop** takes the names in order up to the first for which there is no room. -/
theorem collectFrom_spec (flt : Faults) (names : List Bytes) (hl : HashList) (h : hl.Doubling)
    (hroom : ∀ i < hl.hashes.length, Room flt i) :
    (collectFrom flt hl names).Doubling ∧
      ∃ m ≤ names.length, (collectFrom flt hl names).hashes = hl.hashes ++ (names.take m).map binOf ∧
        (∀ i < hl.hashes.length + m, Room flt i) ∧
        (m = names.length ∨ ¬ Room flt (hl.hashes.length + m)) := by
  induction names generalizing hl with
  | nil => exact ⟨h, 0, Nat.le_refl _, by simp [collectFrom], by simpa using hroom, .inl rfl⟩
  | cons name names ih =>
    rcases collectHash_spec flt hl name h hroom with ⟨hr, hl', hc, hd, hh⟩ | ⟨hr, hc⟩
    · have hlen : hl'.hashes.length = hl.hashes.length + 1 := by simp [hh]
      have hroom' : ∀ i < hl'.hashes.length, Room flt i := by
        intro i hi
        rcases Nat.lt_or_ge i hl.hashes.length with hlt | hge
        · exact hroom i hlt
        · have : i = hl.hashes.length := by omega
          rw [this]
          exact hr
      obtain ⟨h1, m, h2, h3, h4, h5⟩ := ih hl' hd hroom'
      rw [collectFrom, hc]
      refine ⟨h1, m + 1, by simpa using h2, by simp [h3, hh], ?_, ?_⟩
      · intro i hi
        exact h4 i (by omega)
      · rcases h5 with h5 | h5
        · exact .inl (by simp [h5])
        · rw [hlen, Nat.add_assoc, Nat.add_comm 1 m] at h5
          exact .inr h5
    · rw [collectFrom, hc]
      exact ⟨h, 0, by simp, by simp, by simpa using hroom, .inr (by simpa using hr)⟩

/-- The names `pack_create` walks: those the depot lists, then those of the old pack. -/
def packWalk (flt : Faults) (st : Store) (old : Option Pack) : List Bytes :=
  (casForeach flt st).1 ++ (old.map casPackHashes).getD []

theorem collectHashes_spec (flt : Faults) (st : Store) (old : Option Pack) :
    ∃ m ≤ (packWalk flt st old).length,
      collectHashes flt st old = ((packWalk flt st old).take m).map binOf ∧
      (∀ i < m, Room flt i) ∧ (m = (packWalk flt st old).length ∨ ¬ Room flt m) := by
  obtain ⟨hd, m, h1, h2, h3, h4⟩ := collectFrom_spec flt (casForeach flt st).1 ⟨[], 0⟩
    (.inl ⟨rfl, rfl⟩) (by simp)
  simp only [List.nil_append, List.length_nil, Nat.zero_add] at h2 h3 h4
  have hlen : (collectFrom flt ⟨[], 0⟩ (casForeach flt st).1).hashes.length = m := by
    rw [h2]
    simp [h1]
  unfold collectHashes packWalk
  simp only []
  cases old with
  | none => exact ⟨m, by simpa using h1, by simpa using h2, h3, by simpa using h4⟩
  | some p =>
    obtain ⟨-, k, k1, k2, k3, k4⟩ := collectFrom_spec flt (casPackHashes p) _ hd
      (by rw [hlen]; exact h3)
    rw [hlen] at k3 k4
    simp only [Option.map_some, Option.getD_some, List.length_append]
    rcases h4 with h4 | h4
    · refine ⟨m + k, by omega, ?_, k3, ?_⟩
      · rw [k2, h2, List.take_append, List.map_append]
        rw [List.take_of_length_le (show (casForeach flt st).1.length ≤ m + k by omega),
          List.take_of_length_le (show (casForeach flt st).1.length ≤ m by omega), h4]
        congr 3
        omega
      · rcases k4 with k4 | k4
        · exact .inl (by omega)
        · exact .inr k4
    · -- the second iterator fails where the first one did
      have hk : k = 0 := by
        by_contra hk
        exact h4 (k3 m (by omega))
      refine ⟨m, by omega, ?_, h3, .inr h4⟩
      rw [k2, h2, hk, List.take_append_of_le_length h1]
      simp

theorem mem_collectHashes (flt : Faults) (st : Store) (old : Option Pack) (b : Bytes) :
    b ∈ collectHashes flt st old ↔
      ∃ i name, (packWalk flt st old)[i]? = some name ∧ binOf name = b ∧ Room flt i := by
  obtain ⟨m, h1, h2, h3, h4⟩ := collectHashes_spec flt st old
  rw [h2]
  constructor
  · intro hb
    obtain ⟨name, hn, rfl⟩ := List.mem_map.mp hb
    obtain ⟨i, hi, heq⟩ := List.mem_take_iff_getElem.mp hn
    exact ⟨i, name, by rw [List.getElem?_eq_getElem (by omega), heq], rfl, h3 i (by omega)⟩
  · rintro ⟨i, name, hi, rfl, hr⟩
    obtain ⟨hil, heq⟩ := List.getElem?_eq_some_iff.mp hi
    have him : i < m := by
      rcases h4 with h4 | h4
      · omega
      · by_contra hge
        exact h4 fun k hk hg => hr k (by omega) hg
    exact List.mem_map.mpr ⟨name, List.mem_take_iff_getElem.mpr ⟨i, by omega, heq⟩, rfl⟩

theorem room_noFaults (n : Nat) : Room noFaults n := fun _ _ _ => rfl

theorem mem_collectHashes_noFaults (st : Store) (old : Option Pack) (b : Bytes) :
    b ∈ collectHashes noFaults st old ↔ ∃ name ∈ packWalk noFaults st old, binOf name = b := by
  rw [mem_collectHashes]
  constructor
  · rintro ⟨i, name, hi, hb, -⟩
    exact ⟨name, List.mem_of_getElem? hi, hb⟩
  · rintro ⟨name, hm, hb⟩
    obtain ⟨i, hi⟩ := List.mem_iff_getElem?.mp hm
    exact ⟨i, name, hi, hb, room_noFaults i⟩

/-! ## Sorting -/

theorem hashLe_iff (a b : Bytes) : HashLe a b ↔ a ≤ b := by
  unfold HashLe hashCmp
  rw [ne_eq, lexcmp_eq_gt]
  exact List.not_lt

instance : Std.Total HashLe where
  total a b := by
    rw [hashLe_iff, hashLe_iff]
    exact List.le_total a b

instance : IsTrans Bytes HashLe where
  trans a b c hab hbc := by
    rw [hashLe_iff] at *
    exact List.le_trans hab hbc

theorem mem_uniqueFrom (last : Bytes) (l : List Bytes) (b : Bytes) (h : b ∈ uniqueFrom last l) : b ∈ l := by
  induction l generalizing last with
  | nil => exact h
  | cons x xs ih =>
    unfold uniqueFrom at h
    split at h
    · rcases List.mem_cons.mp h with rfl | h
      · simp
      · exact List.mem_cons_of_mem _ (ih x h)
    · exact List.mem_cons_of_mem _ (ih last h)

theorem mem_uniqueFrom_or (last : Bytes) (l : List Bytes) (b : Bytes) (h : b ∈ l) :
    b = last ∨ b ∈ uniqueFrom last l := by
  induction l generalizing last with
  | nil => cases h
  | cons x xs ih =>
    unfold uniqueFrom
    split
    · rcases List.mem_cons.mp h with rfl | h
      · exact .inr (by simp)
      · rcases ih x h with rfl | h'
        · exact .inr (by simp)
        · exact .inr (by simp [h'])
    · next hx =>
      rcases List.mem_cons.mp h with rfl | h
      · rw [ne_eq, not_not, hashCmp, lexcmp_eq_eq] at hx
        exact .inl hx
      · exact ih last h

theorem uniqueFrom_sorted (last : Bytes) (l : List Bytes) (h : (last :: l).Pairwise HashLe) :
    (last :: uniqueFrom last l).Pairwise (· < ·) := by
  induction l generalizing last with
  | nil => simp [uniqueFrom]
  | cons x xs ih =>
    obtain ⟨hlast, hxs⟩ := List.pairwise_cons.mp h
    obtain ⟨hx, hxs'⟩ := List.pairwise_cons.mp hxs
    unfold uniqueFrom
    split
    · next hne =>
      rw [hashCmp, ne_eq, lexcmp_eq_eq] at hne
      have hlt : last < x := by
        have hle := (hashLe_iff last x).mp (hlast x (by simp))
        rcases List.le_iff_lt_or_eq.mp hle with hlt | heq
        · exact hlt
        · exact absurd heq.symm hne
      have hrec := ih x hxs
      rw [List.pairwise_cons]
      refine ⟨?_, hrec⟩
      intro b hb
      rcases List.mem_cons.mp hb with rfl | hb
      · exact hlt
      · exact List.lt_trans hlt ((List.pairwise_cons.mp hrec).1 b hb)
    · exact ih last (List.pairwise_cons.mpr ⟨fun b hb => hlast b (by simp [hb]), hxs'⟩)

theorem mem_sortUnique (l : List Bytes) (b : Bytes) : b ∈ sortUnique l ↔ b ∈ l := by
  have hm := List.mem_insertionSort HashLe (x := b) (l := l)
  unfold sortUnique
  cases hs : l.insertionSort HashLe with
  | nil =>
    rw [hs] at hm
    exact hm
  | cons x xs =>
    rw [hs, List.mem_cons] at hm
    rw [List.mem_cons, ← hm]
    constructor
    · rintro (h | h)
      · exact .inl h
      · exact .inr (mem_uniqueFrom x xs b h)
    · rintro (h | h)
      · exact .inl h
      · exact mem_uniqueFrom_or x xs b h

theorem sortUnique_sorted (l : List Bytes) : (sortUnique l).Pairwise (· < ·) := by
  have hs := List.pairwise_insertionSort HashLe l
  unfold sortUnique
  cases h : l.insertionSort HashLe with
  | nil => simp
  | cons x xs =>
    rw [h] at hs
    exact uniqueFrom_sorted x xs hs

theorem mem_keptHashes (flt : Faults) (st : Store) (old : Option Pack) (keep : Keep) (b : Bytes) :
    b ∈ keptHashes flt st old keep ↔ b ∈ collectHashes flt st old ∧ keep.accepts b = true := by
  unfold keptHashes
  rw [List.mem_filter, mem_sortUnique]

theorem keptHashes_sorted (flt : Faults) (st : Store) (old : Option Pack) (keep : Keep) :
    (keptHashes flt st old keep).Pairwise (· < ·) := (sortUnique_sorted _).filter _

/-! ## Widths -/

theorem binOf_toHex (bin : Bytes) : binOf (toHex bin) = bin := by
  rw [binOf, casHexDecode_toHex, Option.getD_some]

theorem length_binOf_of_walk (flt : Faults) (st : Store) (old : Option Pack) (name : Bytes)
    (h : name ∈ packWalk flt st old) : (binOf name).length = 32 := by
  rcases List.mem_append.mp h with h | h
  · unfold casForeach at h
    split at h
    · cases h
    · have hv : validHash name = true := by
        have := (List.mem_filter.mp h).2
        unfold foreachLists at this
        simp only [Bool.and_eq_true] at this
        exact this.1.1
      obtain ⟨bin, hb, hl⟩ := casHexDecode_of_valid name hv
      rw [binOf, hb]
      exact hl
  · cases old with
    | none => cases h
    | some p =>
      obtain ⟨i, -, rfl⟩ := List.mem_map.mp h
      rw [binOf_toHex]
      exact p.length_read _ _

theorem length_of_kept (flt : Faults) (st : Store) (old : Option Pack) (keep : Keep) (b : Bytes)
    (h : b ∈ keptHashes flt st old keep) : b.length = 32 := by
  obtain ⟨i, name, hi, rfl, -⟩ :=
    (mem_collectHashes flt st old b).mp ((mem_keptHashes flt st old keep b).mp h).1
  exact length_binOf_of_walk flt st old name (List.mem_of_getElem? hi)

theorem looseMap_length (flt : Faults) (st : Store) (hash map : Bytes) (h : looseMap flt st hash = .ok map) :
    64 ≤ map.length ∧ map.length ≤ 2 ^ 30 := by
  unfold looseMap at h
  split at h
  · cases h
  · split at h
    · cases h
    · split at h
      · cases h
      · split at h
        · cases h
        · next hsz =>
          split at h
          · cases h
          · obtain rfl := Except.ok.inj h
            unfold CAS_PACK_BLOCK at hsz
            omega

theorem length_objTrailer (map : Bytes) (h : 64 ≤ map.length) : (objTrailer map).length = 64 := by
  unfold objTrailer
  rw [length_slice _ _ _ (by unfold CAS_PACK_BLOCK; omega)]
  rfl

theorem packSource_trailer (flt : Faults) (st : Store) (old : Option Pack) (bin src tr : Bytes)
    (h : packSource flt st old bin = .ok (src, tr)) : tr.length = 64 := by
  unfold packSource at h
  split at h
  · next r hr =>
    obtain rfl := Except.ok.inj h
    unfold casOpenLooseRaw at hr
    split at hr
    · cases hr
    · split at hr
      · cases hr
      · next map hm =>
        split at hr
        · cases hr
        · obtain ⟨-, rfl⟩ := Prod.mk.inj (Except.ok.inj hr)
          exact length_objTrailer map (looseMap_length flt st _ map hm).1
  · split at h
    · cases h
    · next p =>
      split at h
      · next r hr =>
        obtain rfl := Except.ok.inj h
        obtain ⟨e, -, -, -, -, rfl, -⟩ := packRawRegion_ok p bin src tr hr
        exact p.length_read _ _
      · cases h
  · cases h

/-! ## What a successful call has done -/

/-- One entry of the new pack: what it was copied from, and the form it was written in. -/
theorem packEntry_ok (cs : Codecs) (flt : Faults) (st : Store) (old : Option Pack) (policy : Policy)
    (codec : Int) (bin : Bytes) (e : Emitted) (h : packEntry cs flt st old policy codec bin = .ok e) :
    ∃ src tr type contentLen, packSource flt st old bin = .ok (src, tr) ∧
      packParseHeader (trailerHeader tr) = some (type, contentLen) ∧
      let use := packUse policy codec (trailerMagic tr == CAS_PACK_TRAILER_MAGIC_V2) src
      (packEncode cs (flt (.scratchObj (toHex bin))) use src = none ∧ e = ⟨bin, src, tr, contentLen⟩ ∨
        ∃ payload, packEncode cs (flt (.scratchObj (toHex bin))) use src = some payload ∧
          e = ⟨bin, UInt8.ofNat use.toNat :: payload, CAS_PACK_TRAILER_MAGIC_V2 ++ trailerHeader tr,
            contentLen⟩) := by
  unfold packEntry at h
  split at h
  · cases h
  · next src tr hsrc =>
    split at h
    · cases h
    · next type contentLen hp =>
      refine ⟨src, tr, type, contentLen, hsrc, hp, ?_⟩
      simp only [] at h ⊢
      split at h
      · next hn => exact .inl ⟨hn, (Except.ok.inj h).symm⟩
      · next payload hn => exact .inr ⟨payload, hn, (Except.ok.inj h).symm⟩

theorem packEntry_widths (cs : Codecs) (flt : Faults) (st : Store) (old : Option Pack) (policy : Policy)
    (codec : Int) (bin : Bytes) (e : Emitted) (h : packEntry cs flt st old policy codec bin = .ok e) :
    e.bin = bin ∧ e.trailer.length = 64 := by
  obtain ⟨src, tr, type, contentLen, hsrc, -, hform⟩ := packEntry_ok cs flt st old policy codec bin e h
  have htr := packSource_trailer flt st old bin src tr hsrc
  rcases hform with ⟨-, rfl⟩ | ⟨payload, -, rfl⟩
  · exact ⟨rfl, htr⟩
  · refine ⟨rfl, ?_⟩
    rw [List.length_append, trailerHeader, length_slice _ _ _ (by rw [htr]; decide)]
    rfl

theorem packEntries_ok (cs : Codecs) (flt : Faults) (st : Store) (old : Option Pack) (policy : Policy)
    (codec : Int) (bins : List Bytes) (offset : Nat) (es : List Emitted)
    (h : packEntries cs flt st old policy codec offset bins = .ok es) :
    es.map Emitted.bin = bins ∧ ∀ e ∈ es, packEntry cs flt st old policy codec e.bin = .ok e := by
  induction bins generalizing offset es with
  | nil =>
    obtain rfl := Except.ok.inj h
    simp
  | cons bin bins ih =>
    unfold packEntries at h
    split at h
    · cases h
    · next e he =>
      split at h
      · cases h
      · split at h
        · cases h
        · next es' hes =>
          obtain rfl := Except.ok.inj h
          obtain ⟨h1, h2⟩ := ih _ es' hes
          have hb := (packEntry_widths cs flt st old policy codec bin e he).1
          refine ⟨by simp [h1, hb], ?_⟩
          intro x hx
          rcases List.mem_cons.mp hx with rfl | hx
          · rw [hb]
            exact he
          · exact h2 x hx

@[simp] theorem setFile_loose (st : Store) (path data : Bytes) : (st.setFile path data).loose = st.loose := rfl

@[simp] theorem setFile_pack (st : Store) (path data : Bytes) : (st.setFile path data).pack = st.pack := rfl

@[simp] theorem setFile_self (st : Store) (path data : Bytes) :
    (st.setFile path data).file path = some data := by
  simp [Store.setFile]

theorem looseMap_ne_ok (flt : Faults) (st : Store) (hash : Bytes) :
    looseMap flt st hash ≠ .error .ok := by
  unfold looseMap
  split
  · simp
  · split
    · simp
    · split
      · simp
      · split
        · simp
        · split <;> simp

theorem packSource_ne_ok (flt : Faults) (st : Store) (old : Option Pack) (bin : Bytes) :
    packSource flt st old bin ≠ .error .ok := by
  unfold packSource
  split
  · simp
  · split
    · simp
    · split <;> simp
  · next rc _ hr =>
    rintro heq
    obtain rfl := Except.error.inj heq
    unfold casOpenLooseRaw at hr
    split at hr
    · cases hr
    · split at hr
      · next e he =>
        obtain rfl := Except.error.inj hr
        exact looseMap_ne_ok flt st _ he
      · split at hr <;> cases hr

theorem packEntries_ne_ok (cs : Codecs) (flt : Faults) (st : Store) (old : Option Pack) (policy : Policy)
    (codec : Int) (bins : List Bytes) (offset : Nat) :
    packEntries cs flt st old policy codec offset bins ≠ .error .ok := by
  induction bins generalizing offset with
  | nil => simp [packEntries]
  | cons bin bins ih =>
    unfold packEntries
    split
    · next rc he =>
      rintro heq
      obtain rfl := Except.error.inj heq
      unfold packEntry at he
      split at he
      · next rc' hs =>
        obtain rfl := Except.error.inj he
        exact packSource_ne_ok flt st old bin hs
      · split at he
        · cases he
        · simp only [] at he
          split at he <;> cases he
    · split
      · simp
      · split
        · next rc he =>
          rintro heq
          obtain rfl := Except.error.inj heq
          exact ih _ he
        · simp

section
variable (cs : Codecs) (flt : Faults) (st st' : Store) (path : Bytes) (policy : Policy) (codec : Int)
  (keep : Keep)

/-- **A successful `pack_create`** had nothing to keep and did nothing, or replaced the file at the path
by the image of one entry for each address it kept. -/
theorem packCreate_ok (h : packCreate cs flt st path policy codec keep = (.ok, st')) :
    let old := casPackOpen (flt .openPack) (st.file path)
    (keptHashes flt st old keep = [] ∧ st' = st) ∨
      ∃ es, es ≠ [] ∧ es.map Emitted.bin = keptHashes flt st old keep ∧
        (∀ e ∈ es, packEntry cs flt st old policy codec e.bin = .ok e) ∧
        PackedOk es ∧ BinsSorted es ∧ st' = st.setFile path (packImage es) := by
  intro old
  unfold packCreate at h
  simp only [] at h
  split at h
  · next hk => exact .inl ⟨hk, (Prod.mk.inj h).2.symm⟩
  · next hk =>
    split at h
    · cases h
    · split at h
      · cases h
      · split at h
        · next rc he =>
          obtain ⟨rfl, -⟩ := Prod.mk.inj h
          exact absurd he (packEntries_ne_ok cs flt st _ policy codec _ 0)
        · next es he =>
          obtain ⟨hbins, hentries⟩ := packEntries_ok cs flt st old policy codec _ 0 es he
          split at h
          · cases h
          · next hsz =>
            split at h
            · cases h
            · split at h
              · cases h
              · split at h
                · cases h
                · refine .inr ⟨es, ?_, hbins, hentries, ⟨?_, ?_, ?_⟩, ?_, (Prod.mk.inj h).2.symm⟩
                  · rintro rfl
                    exact hk hbins.symm
                  · intro e hm
                    exact length_of_kept flt st old keep e.bin
                      (hbins ▸ List.mem_map_of_mem hm)
                  · intro e hm
                    exact (packEntry_widths cs flt st old policy codec e.bin e (hentries e hm)).2
                  · exact Nat.lt_of_not_le fun hle => hsz (.inr hle)
                  · rw [BinsSorted, hbins]
                    exact keptHashes_sorted flt st old keep

/-- What `pack_create` does when nothing fails but, perhaps, the opening of the old pack. -/
theorem packCreate_run (hno : ∀ s, s ≠ .openPack → flt s = false) (es : List Emitted)
    (hk : keptHashes flt st (casPackOpen (flt .openPack) (st.file path)) keep = es.map Emitted.bin)
    (hne : es ≠ [])
    (hes : packEntries cs flt st (casPackOpen (flt .openPack) (st.file path)) policy codec 0
      (es.map Emitted.bin) = .ok es)
    (hsz : (packImage es).length < 2 ^ 63) :
    packCreate cs flt st path policy codec keep = (.ok, st.setFile path (packImage es)) := by
  have hsz' : ¬ (packImage es).length ≥ 2 ^ 63 := by omega
  unfold packCreate
  simp only [hk, hes, List.map_eq_nil_iff, if_neg hne, hno .tempPack (by simp), hno .indexPack (by simp),
    hno .writeIndex (by simp), hno .checkPack (by simp), hno .syncPack (by simp), hno .renamePack (by simp),
    Bool.false_eq_true, if_false, false_or, if_neg hsz']

/-- A failed `pack_create` leaves everything as it was. -/
theorem packCreate_failed (rc : Status) (h : packCreate cs flt st path policy codec keep = (rc, st'))
    (hrc : rc ≠ .ok) : st' = st := by
  unfold packCreate at h
  simp only [] at h
  split at h
  · exact (Prod.mk.inj h).2.symm
  · split at h
    · exact (Prod.mk.inj h).2.symm
    · split at h
      · exact (Prod.mk.inj h).2.symm
      · split at h
        · exact (Prod.mk.inj h).2.symm
        · split at h
          · exact (Prod.mk.inj h).2.symm
          · split at h
            · exact (Prod.mk.inj h).2.symm
            · split at h
              · exact (Prod.mk.inj h).2.symm
              · split at h
                · exact (Prod.mk.inj h).2.symm
                · exact absurd (Prod.mk.inj h).1.symm hrc

end

end Smolvfs
