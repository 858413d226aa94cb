import Smolvfs.Tree

/-!
# The text form of a directory is canonical

Which octets `tree_text_verify` passes: the text of a directory in ascending order
whose lines can be read back (`treeTextVerify_iff`).  `parse_entry` copies the 64
characters of the address as they stand, so they need not be lowercase hex; where
they are, a directory has one text (`treeText_canonical_iff`).
-/

namespace Smolvfs

open Octets Numeral

/-! ## What is parsed without a NUL can be written back -/

theorem skipSpace_front (s : Bytes) : NoBlank (skipSpace s) := by
  intro c cs hc
  have h := List.head?_dropWhile_not isSpace s
  unfold skipSpace at hc
  rw [hc] at h
  simpa using h

/-- The count of `%n` leads to a character that is no blank. -/
theorem scanEntry_count (line : Bytes) (h0 : (0 : UInt8) ∉ line) (mode uid gid : BitVec 32) (mtimeS : BitVec 64)
    (mtimeNs : BitVec 32) (n : Nat) (h : scanEntry line = some (mode, uid, gid, mtimeS, mtimeNs, n)) :
    NoBlank (line.drop n) := by
  unfold scanEntry at h
  rw [takeWhile_ne line h0] at h
  simp only [Option.bind_eq_some_iff, Option.map_eq_some_iff] at h
  obtain ⟨⟨v1, s1⟩, h1, ⟨v2, s2⟩, h2, ⟨v3, s3⟩, h3, ⟨v4, s4⟩, h4, ⟨v5, s5⟩, h5, heq⟩ := h
  have hn : line.length - (skipSpace s5).length = n := by
    simp only [Prod.mk.injEq] at heq
    exact heq.2.2.2.2.2
  have hsuf : skipSpace s5 <:+ line :=
    (List.dropWhile_suffix _).trans ((scanInt_suffix _ _ _ _ h5).trans ((scanInt_suffix _ _ _ _ h4).trans
      ((scanInt_suffix _ _ _ _ h3).trans ((scanInt_suffix _ _ _ _ h2).trans (scanInt_suffix _ _ _ _ h1)))))
  rw [← hn, ← List.suffix_iff_eq_drop.mp hsuf]
  exact skipSpace_front s5

theorem noBlank_take (s : Bytes) (n : Nat) (h : NoBlank s) : NoBlank (s.take n) := by
  intro c cs hc
  cases s with
  | nil => simp at hc
  | cons d ds =>
    cases n with
    | zero => cases hc
    | succ n =>
      obtain ⟨rfl, -⟩ := List.cons.inj hc
      exact h _ ds rfl

/-- The octets of a line before its newline. -/
theorem lineLen_spec (p : Bytes) (n : Nat) (h : lineLen p = some n) : n < p.length ∧ (10 : UInt8) ∉ p.take n := by
  unfold lineLen at h
  split at h
  · next hm =>
    obtain rfl := Option.some.inj h
    have hpre := List.takeWhile_prefix (fun c : UInt8 => c != 10) (l := p)
    refine ⟨?_, ?_⟩
    · by_contra hle
      have heq := hpre.eq_of_length_le (Nat.not_lt.mp hle)
      rw [← heq] at hm
      have := List.mem_takeWhile_imp hm
      simp at this
    · rw [← List.prefix_iff_eq_take.mp hpre]
      intro hm
      have := List.mem_takeWhile_imp hm
      simp at this
  · cases h

/-- **A parsed entry can be written back** when no NUL cut its fields. -/
theorem parseEntry_written (line : Bytes) (linelen : Nat) (e : Entry) (h0 : (0 : UInt8) ∉ line)
    (hlen : lineLen line = some linelen) (h : parseEntry line linelen = some e) (hname : validName e.name = true) :
    e.Written := by
  obtain ⟨hlt, h10⟩ := lineLen_spec line linelen hlen
  unfold parseEntry at h
  split at h
  · cases h
  · next mode uid gid mtimeS mtimeNs n hscan =>
    have hblank := scanEntry_count line h0 mode uid gid mtimeS mtimeNs n hscan
    split at h
    · cases h
    · next hfits =>
      unfold CAS_HASH_HEX at hfits
      split at h
      · cases h
      · simp only [] at h
        split at h
        · cases h
        · obtain rfl := Option.some.inj h
          have hsub : ∀ c ∈ slice line n 64, c ∈ line.take linelen := by
            intro c hc
            rw [show line.take linelen = line.take n ++ (slice line n 64 ++ (line.take linelen).drop (n + 64)) by
              rw [← List.append_assoc, slice, ← List.take_add]
              nth_rewrite 1 [← List.take_append_drop (n + 64) (line.take linelen)]
              rw [List.take_take, Nat.min_eq_left (by omega)]]
            exact List.mem_append.mpr (.inr (List.mem_append.mpr (.inl hc)))
          have hno0 : (0 : UInt8) ∉ slice line n 64 := fun hc => h0 (List.mem_of_mem_take (hsub 0 hc))
          refine ⟨?_, ?_, ?_, ?_, hname⟩
          · show (CStr.ofBuf (slice line n 64)).bytes.length = 64
            rw [ofBuf_of_noNul _ hno0, length_slice line n 64 (by omega)]
          · exact (CStr.ofBuf _).noNul
          · show (10 : UInt8) ∉ (CStr.ofBuf (slice line n 64)).bytes
            rw [ofBuf_of_noNul _ hno0]
            exact fun hc => h10 (hsub 10 hc)
          · show NoBlank (CStr.ofBuf (slice line n 64)).bytes
            rw [ofBuf_of_noNul _ hno0]
            exact noBlank_take _ _ hblank

theorem parseEntry_noNul (line : Bytes) (linelen : Nat) (e : Entry) (h : parseEntry line linelen = some e) :
    (0 : UInt8) ∉ e.hash := by
  unfold parseEntry at h
  split at h
  · cases h
  · split at h
    · cases h
    · split at h
      · cases h
      · simp only [] at h
        split at h
        · cases h
        · obtain rfl := Option.some.inj h
          exact (CStr.ofBuf _).noNul

theorem treeSerialize_noNul (dir : Dir) (h : ∀ e ∈ dir, (0 : UInt8) ∉ e.hash) : (0 : UInt8) ∉ treeSerialize dir := by
  intro hm
  rcases List.mem_cons.mp hm with hm | hm
  · cases hm
  · obtain ⟨e, he, hm⟩ := List.mem_flatMap.mp hm
    unfold entryLine at hm
    simp only [List.mem_append, List.mem_cons, List.not_mem_nil, or_false] at hm
    rcases hm with hm | hm | hm | hm | hm
    · exact (lineNumbers_ne e 0 hm).1 rfl
    · exact h e he hm
    · cases hm
    · exact e.name.noNul hm
    · cases hm

/-! ## What the check of a text passes -/

theorem treeTextLoad_spec (noMem : Bool) (data : Bytes) (dir : Dir) (h : treeTextLoad noMem data = .ok dir) :
    ∃ p, data = 37 :: p ∧ textLoad noMem p.length p [] = .ok dir := by
  unfold treeTextLoad at h
  split at h
  · cases h
  · next c p =>
    split at h
    · cases h
    · next hc => exact ⟨p, by rw [not_not.mp hc], h⟩

/-- **A text passes exactly when it is that of an ascending directory** with lines that can be read back. -/
theorem treeTextVerify_iff (data : Bytes) :
    treeTextVerify false data = .ok ↔
      ∃ dir, NamesAscending dir ∧ (∀ e ∈ dir, e.Written) ∧ data = treeSerialize dir := by
  constructor
  · intro h
    obtain ⟨dir, hload, htext⟩ := treeTextVerify_ok data h
    obtain ⟨p, hp, hloop⟩ := treeTextLoad_spec false data dir hload
    have hno0 : (0 : UInt8) ∉ data := by
      rw [← htext]
      exact treeSerialize_noNul dir
        (textLoad_forall _ false _ p [] dir (fun _ _ e _ _ he _ => parseEntry_noNul _ _ e he) (by simp) hloop)
    refine ⟨dir, (textLoad_extends false _ p [] dir List.Pairwise.nil hloop).2, ?_, htext.symm⟩
    refine textLoad_forall _ false _ p [] dir (fun line linelen e hsuf hlen he hname => ?_) (by simp) hloop
    refine parseEntry_written line linelen e (fun hm => hno0 ?_) hlen he hname
    rw [hp]
    exact List.mem_cons_of_mem _ (hsuf.mem hm)
  · rintro ⟨dir, hs, hw, rfl⟩
    exact treeTextVerify_written dir hw hs

/-- The canonical form: names in ascending order and accepted, addresses of 64 lowercase hex digits. -/
def IsTreeText (data : Bytes) : Prop :=
  ∃ dir, NamesAscending dir ∧ (∀ e ∈ dir, e.Printable) ∧ data = treeSerialize dir

/-- Where `data` hashes to `hash` and is the text of a directory, its addresses are lowercase hex. -/
def LowerText (data hash : Bytes) : Prop :=
  casHashObject tTree data = .ok hash → ∀ dir, NamesAscending dir → (∀ e ∈ dir, e.Written) →
    data = treeSerialize dir → ∀ e ∈ dir, LowerHash e.hash

theorem treeCheck_iff (data hash : Bytes) :
    casTreeCheckObject false tTree data hash = .ok ↔ casHashObject tTree data = .ok hash ∧
      ∃ dir, NamesAscending dir ∧ (∀ e ∈ dir, e.Written) ∧ data = treeSerialize dir := by
  rw [casTreeCheckObject_iff, if_neg (show tTree ≠ tHtree by decide), ← treeTextVerify_iff]
  exact and_congr_right fun _ => ⟨fun h => h rfl, fun h _ => h⟩

/-- Name, metadata and the child's 32 octets. -/
structure Listing where
  name : CStr
  mode : BitVec 32
  uid : BitVec 32
  gid : BitVec 32
  mtimeS : BitVec 64
  mtimeNs : BitVec 32
  child : Option Bytes
  deriving DecidableEq

def Entry.listing (e : Entry) : Listing := ⟨e.name, e.mode, e.uid, e.gid, e.mtimeS, e.mtimeNs, casHexDecode e.hash⟩

theorem listing_inj (a b : Entry) (ha : LowerHash a.hash) (hb : LowerHash b.hash) (h : a.listing = b.listing) :
    a = b := by
  obtain ⟨bin, hbin, -⟩ := casHexDecode_of_valid a.hash ha.valid
  have hchild : casHexDecode a.hash = casHexDecode b.hash := congrArg Listing.child h
  have hhash : a.hash = b.hash := by
    rw [← (ha.toHex_decode hbin).1, ← (hb.toHex_decode (hchild ▸ hbin)).1]
  cases a
  cases b
  simp only [Entry.listing, Listing.mk.injEq] at h
  obtain ⟨rfl, rfl, rfl, rfl, rfl, rfl, -⟩ := h
  obtain rfl := hhash
  rfl

/-- An ascending directory is determined by which entries it has. -/
theorem namesAscending_ext (a b : Dir) (ha : NamesAscending a) (hb : NamesAscending b) (h : ∀ e, e ∈ a ↔ e ∈ b) :
    a = b := by
  have hnodup : ∀ dir, NamesAscending dir → dir.Nodup := fun dir hs => hs.imp fun hlt heq => by
    rw [heq, nameCmp_self] at hlt
    cases hlt
  have hperm := (List.perm_ext_iff_of_nodup (hnodup a ha) (hnodup b hb)).mpr h
  refine hperm.eq_of_pairwise (fun x y _ _ hxy hyx => ?_) ha hb
  have hself := nameCmp_lt_trans _ _ _ hxy hyx
  rw [nameCmp_self] at hself
  cases hself

/-- **A text tree is canonical exactly when its addresses are lowercase hex**; then a directory has one text,
and a lookup in any text that loads agrees with the listing. -/
theorem treeText_canonical_iff (data hash : Bytes) :
    ((casTreeCheckObject false tTree data hash = .ok ↔ casHashObject tTree data = .ok hash ∧ IsTreeText data) ↔
      LowerText data hash) ∧
    (∀ data' hash' dir dir', LowerText data hash → LowerText data' hash' →
      casTreeCheckObject false tTree data hash = .ok → casTreeCheckObject false tTree data' hash' = .ok →
      treeTextLoad false data = .ok dir → treeTextLoad false data' = .ok dir' →
      (∀ x, x ∈ dir.map Entry.listing ↔ x ∈ dir'.map Entry.listing) → data = data') ∧
    ∀ noMem dir name, treeTextLoad noMem data = .ok dir → treeTextLookup data name = dirFind dir name := by
  refine ⟨?_, ?_, fun noMem dir name h => treeTextLookup_load noMem data dir name h⟩
  · rw [treeCheck_iff]
    constructor
    · intro h haddr dir hs hw htext e he
      obtain ⟨-, dir', hs', hp', htext'⟩ := h.mp ⟨haddr, dir, hs, hw, htext⟩
      have hload := treeTextLoad_written dir hw hs
      rw [← htext, htext', treeTextLoad_serialize dir' hp' hs'] at hload
      obtain rfl := Except.ok.inj hload
      exact (hp' e he).hash
    · intro hlower
      refine and_congr_right fun haddr => ⟨?_, ?_⟩
      · rintro ⟨dir, hs, hw, htext⟩
        exact ⟨dir, hs, fun e he => ⟨hlower haddr dir hs hw htext e he, (hw e he).name⟩, htext⟩
      · rintro ⟨dir, hs, hp, htext⟩
        exact ⟨dir, hs, fun e he => (hp e he).written, htext⟩
  · intro data' hash' dir dir' hlower hlower' hcheck hcheck' hload hload' hlist
    obtain ⟨haddr, d, hs, hw, htext⟩ := (treeCheck_iff data hash).mp hcheck
    obtain ⟨haddr', d', hs', hw', htext'⟩ := (treeCheck_iff data' hash').mp hcheck'
    have hl := hlower haddr d hs hw htext
    have hl' := hlower' haddr' d' hs' hw' htext'
    rw [htext, treeTextLoad_written d hw hs] at hload
    rw [htext', treeTextLoad_written d' hw' hs'] at hload'
    obtain rfl := Except.ok.inj hload
    obtain rfl := Except.ok.inj hload'
    have hmem : ∀ (a b : Dir), (∀ e ∈ a, LowerHash e.hash) → (∀ e ∈ b, LowerHash e.hash) →
        (∀ x, x ∈ a.map Entry.listing → x ∈ b.map Entry.listing) → ∀ e ∈ a, e ∈ b := by
      intro a b ha hb hab e he
      obtain ⟨e', he', heq⟩ := List.mem_map.mp (hab _ (List.mem_map_of_mem he))
      rw [← listing_inj e' e (hb e' he') (ha e he) heq]
      exact he'
    have hdir := namesAscending_ext d d' hs hs' fun e =>
      ⟨hmem d d' hl hl' (fun x => (hlist x).mp) e, hmem d' d hl' hl (fun x => (hlist x).mpr) e⟩
    rw [htext, htext', hdir]

/-! ## Another spelling of an address -/

/-- A file under an address of 64 times the one character. -/
def spelledEntry (c : UInt8) : Entry := ⟨0o100644#32, 0, 0, 0, 0, List.replicate 64 c, lit ['f']⟩

theorem spelledEntry_written (c : UInt8) (h0 : c ≠ 0) (h10 : c ≠ 10) (hc : isSpace c = false) :
    (spelledEntry c).Written where
  length := List.length_replicate
  noNul hm := h0 (List.eq_of_mem_replicate hm).symm
  noNewline hm := h10 (List.eq_of_mem_replicate hm).symm
  noBlank := by
    intro d ds hd
    obtain ⟨rfl, -⟩ := List.cons.inj hd
    exact hc
  name := by
    show validName (lit ['f']) = true
    decide

theorem spelledEntry_admitted (c : UInt8) (h0 : c ≠ 0) (h10 : c ≠ 10) (hc : isSpace c = false) :
    ∃ hash, casTreeCheckObject false tTree (treeSerialize [spelledEntry c]) hash = .ok := by
  have hw := spelledEntry_written c h0 h10 hc
  have hlen : (treeSerialize [spelledEntry c]).length < 2 ^ 64 := by
    have hline := length_entryLine _ hw
    have hnum : (lineNumbers (spelledEntry c)).length = (lineNumbers (spelledEntry 65)).length := rfl
    have hsmall : (lineNumbers (spelledEntry 65)).length < 100 := by decide +kernel
    have hname : (spelledEntry c).name.bytes.length = 1 := by
      show (lit ['f']).bytes.length = 1
      decide
    simp only [treeSerialize, List.length_cons, List.flatMap_cons, List.flatMap_nil, List.append_nil]
    omega
  obtain ⟨hash, haddr, -⟩ := casHashObject_tree _ hlen
  exact ⟨hash, (treeCheck_iff _ _).mpr ⟨haddr, [spelledEntry c], List.pairwise_singleton _ _, by simpa using hw, rfl⟩⟩

/-- One directory, two texts that are admitted: the address of its file in capitals and in small letters. -/
theorem treeText_two_spellings :
    (∃ hash, casTreeCheckObject false tTree (treeSerialize [spelledEntry 65]) hash = .ok) ∧
      (∃ hash, casTreeCheckObject false tTree (treeSerialize [spelledEntry 97]) hash = .ok) ∧
      (spelledEntry 65).listing = (spelledEntry 97).listing ∧
      treeSerialize [spelledEntry 65] ≠ treeSerialize [spelledEntry 97] ∧
      ¬ IsTreeText (treeSerialize [spelledEntry 65]) := by
  have hupper := spelledEntry_written 65 (by decide) (by decide) (by decide)
  have hlower := spelledEntry_written 97 (by decide) (by decide) (by decide)
  have hload := treeTextLoad_written [spelledEntry 65] (by simpa using hupper) (List.pairwise_singleton _ _)
  refine ⟨spelledEntry_admitted 65 (by decide) (by decide) (by decide),
    spelledEntry_admitted 97 (by decide) (by decide) (by decide), by decide +kernel, fun heq => ?_, ?_⟩
  · rw [heq, treeTextLoad_written [spelledEntry 97] (by simpa using hlower) (List.pairwise_singleton _ _)] at hload
    exact absurd (congrArg (fun d : Except Status Dir => d.toOption.map fun d => d.map Entry.hash) hload) (by decide)
  · rintro ⟨dir, hs, hp, htext⟩
    rw [htext, treeTextLoad_serialize dir hp hs] at hload
    have hmem : spelledEntry 65 ∈ dir := by
      rw [Except.ok.inj hload]
      exact List.mem_singleton.mpr rfl
    exact absurd ((hp _ hmem).hash.2 65 (List.mem_replicate.mpr ⟨by decide, rfl⟩)) (by decide)

end Smolvfs
