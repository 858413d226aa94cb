import Smolvfs.HtreeRead
import Smolvfs.Store

/-!
# Verifying an htree

`htree_verify` of `cas-tree.c`: parse, sort, hash the text form, build again and
compare.  `htreeVerify_ok_iff`: what is admitted at an address is exactly the
encoding of a directory whose text has that address.

`admitted_htree_pinned`: so every lookup in an admitted htree gives what its
listing gives and what the text form gives, and an address admits one htree
unless two texts collide.
-/

namespace Smolvfs

open Octets

/-- `entry_cmp(a, b) <= 0` -/
def entryLe (a b : Entry) : Prop := nameCmp a.name b.name ≠ .gt

instance : DecidableRel entryLe := fun _ _ => inferInstanceAs (Decidable (_ ≠ _))

/-- `qsort` by `entry_cmp`; what it does among equal names shows nowhere, for those are refused. -/
def sortEntries (dir : Dir) : Dir := dir.insertionSort entryLe

/-- `htree_verify`; `noMem` says that its allocations fail. -/
def htreeVerify (noMem : Bool) (data hash : Bytes) : FsckStatus :=
  match htreeParseDir noMem data with
  | .error _ => .corrupt
  | .ok dir =>
    let dir := sortEntries dir
    if noMem then .corrupt
    else
      match casHashObject tTree (treeSerialize dir) with
      | .error _ => .corrupt
      | .ok computed =>
        if computed ≠ hash then .corrupt else if htreeBuild dir = data then .ok else .corrupt

/-- Two objects with one address. -/
def Collide (a b : Object) : Prop :=
  a ≠ b ∧ ∃ hash, casHashObject a.1 a.2 = .ok hash ∧ casHashObject b.1 b.2 = .ok hash

theorem sortEntries_of_ascending (dir : Dir) (h : NamesAscending dir) : sortEntries dir = dir := by
  unfold sortEntries
  apply List.Pairwise.insertionSort_eq
  refine h.imp fun {a b} hlt => ?_
  unfold entryLe
  rw [hlt]
  decide

/-- What `htree_verify` admits: encodings of directories whose text has the address. -/
theorem htreeVerify_ok (noMem : Bool) (data hash : Bytes) (h : htreeVerify noMem data hash = .ok) :
    ∃ dir, htreeParseDir noMem data = .ok dir ∧ casHashObject tTree (treeSerialize dir) = .ok hash ∧
      data = htreeBuild dir := by
  unfold htreeVerify at h
  cases hparse : htreeParseDir noMem data with
  | error e => simp [hparse] at h
  | ok dir =>
    obtain ⟨-, hs⟩ := htreeParseDir_listed noMem data dir hparse
    simp only [hparse, sortEntries_of_ascending dir hs] at h
    split at h
    · cases h
    cases hh : casHashObject tTree (treeSerialize dir) with
    | error e => simp [hh] at h
    | ok computed =>
      simp only [hh] at h
      split at h
      · cases h
      · next hc =>
        split at h
        · next hb => exact ⟨dir, rfl, by rw [hh, of_not_not hc], hb.symm⟩
        · cases h

/-- An encoding is admitted at the address of the text. -/
theorem htreeVerify_build (dir : Dir) (hash : Bytes) (hp : ∀ e ∈ dir, e.Printable) (hs : NamesAscending dir)
    (hlen : (htreeBuild dir).length < 2 ^ 32) (hh : casHashObject tTree (treeSerialize dir) = .ok hash) :
    htreeVerify false (htreeBuild dir) hash = .ok := by
  unfold htreeVerify
  simp only [htreeParseDir_build dir hp hs hlen, sortEntries_of_ascending dir hs, hh]
  simp

/-- **Admitted exactly when it encodes** a directory whose text has the address. -/
theorem htreeVerify_ok_iff (data hash : Bytes) (hlen : data.length < 2 ^ 32) :
    htreeVerify false data hash = .ok ↔
      ∃ dir, (∀ e ∈ dir, e.Printable) ∧ NamesAscending dir ∧ data = htreeBuild dir ∧
        casHashObject tTree (treeSerialize dir) = .ok hash := by
  constructor
  · intro h
    obtain ⟨dir, hparse, hh, hb⟩ := htreeVerify_ok false data hash h
    obtain ⟨hp, hs⟩ := htreeParseDir_listed false data dir hparse
    exact ⟨dir, hp, hs, hb, hh⟩
  · rintro ⟨dir, hp, hs, rfl, hh⟩
    exact htreeVerify_build dir hash hp hs hlen hh

theorem dirFind_ok_iff (dir : Dir) (h : NamesAscending dir) (name : CStr) (e : Entry) :
    dirFind dir name = .ok e ↔ e ∈ dir ∧ e.name = name := by
  constructor
  · intro hf
    unfold dirFind at hf
    split at hf
    · next x hx =>
      obtain rfl := Except.ok.inj hf
      exact ⟨List.mem_of_find?_eq_some hx, by simpa using List.find?_some hx⟩
    · cases hf
  · rintro ⟨he, rfl⟩
    exact dirFind_of_mem dir h e he

theorem dirFind_enotfound_iff (dir : Dir) (name : CStr) :
    dirFind dir name = .error .enotfound ↔ ∀ e ∈ dir, e.name ≠ name := by
  constructor
  · intro hf e he hn
    unfold dirFind at hf
    split at hf
    · cases hf
    · next hnone =>
      rw [List.find?_eq_none] at hnone
      exact hnone e he (by simpa using hn)
  · exact dirFind_of_absent dir name

/-- **An admitted htree cannot lie by name**, and is the only one its address admits. -/
theorem admitted_htree_pinned (noMem : Bool) (b hash : Bytes) (hlen : b.length < 2 ^ 32)
    (h : htreeVerify noMem b hash = .ok) :
    ∃ dir, htreeParseDir noMem b = .ok dir ∧
      (∀ name e, htreeLookupEntry b name = .ok e ↔ e ∈ dir ∧ e.name = name) ∧
      (∀ name, htreeLookupEntry b name = .error .enotfound ↔ ∀ e ∈ dir, e.name ≠ name) ∧
      (∀ name, htreeLookupEntry b name = dirFind dir name) ∧
      (∀ name, treeTextLookup (treeSerialize dir) name = htreeLookupEntry b name) ∧
      casHashObject tTree (treeSerialize dir) = .ok hash ∧
      b = htreeBuild dir ∧
      ∀ noMem' b', htreeVerify noMem' b' hash = .ok →
        b' = b ∨ ∃ dir', htreeParseDir noMem' b' = .ok dir' ∧
          Collide (tTree, treeSerialize dir) (tTree, treeSerialize dir') := by
  obtain ⟨dir, hparse, hh, rfl⟩ := htreeVerify_ok noMem b hash h
  obtain ⟨hp, hs⟩ := htreeParseDir_listed noMem _ dir hparse
  have hlook := htreeLookupEntry_build dir hp hs hlen
  refine ⟨dir, hparse, ?_, ?_, hlook, ?_, hh, rfl, ?_⟩
  · intro name e
    rw [hlook name]
    exact dirFind_ok_iff dir hs name e
  · intro name
    rw [hlook name]
    exact dirFind_enotfound_iff dir name
  · intro name
    rw [hlook name, treeTextLookup_serialize dir name hp hs]
  · intro noMem' b' h'
    obtain ⟨dir', hparse', hh', rfl⟩ := htreeVerify_ok noMem' b' hash h'
    obtain ⟨hp', hs'⟩ := htreeParseDir_listed noMem' _ dir' hparse'
    by_cases htext : treeSerialize dir = treeSerialize dir'
    · left
      rw [treeSerialize_inj dir dir' hp hp' hs hs' htext]
    · right
      refine ⟨dir', hparse', fun heq => htext (Prod.mk.inj heq).2, hash, hh, hh'⟩

/-! ## A directory of one file -/

/-- A regular file `a` whose address is all zeros. -/
def fileA : Entry := ⟨0o100644#32, 0#32, 0#32, 0#64, 0#32, List.replicate 64 48, lit ['a']⟩

theorem fileA_printable : ∀ e ∈ [fileA], e.Printable := by
  intro e he
  obtain rfl := List.mem_singleton.mp he
  exact ⟨by decide +kernel, by decide⟩

theorem fileA_ascending : NamesAscending [fileA] := List.pairwise_singleton _ _

theorem length_build_fileA : (htreeBuild [fileA]).length < 2 ^ 29 := by
  decide +kernel

theorem admitted_htree_fileA : ∃ hash, htreeVerify false (htreeBuild [fileA]) hash = .ok ∧
    ∃ dir, htreeParseDir false (htreeBuild [fileA]) = .ok dir ∧ dir = [fileA] ∧
      ∀ name e, htreeLookupEntry (htreeBuild [fileA]) name = .ok e ↔ e ∈ dir ∧ e.name = name := by
  obtain ⟨hash, hh, -⟩ := casHashObject_tree (treeSerialize [fileA]) (by decide +kernel)
  have hlen : (htreeBuild [fileA]).length < 2 ^ 32 := Nat.lt_trans length_build_fileA (by decide)
  have hv := htreeVerify_build [fileA] hash fileA_printable fileA_ascending hlen hh
  obtain ⟨dir, hparse, hlook, -⟩ := admitted_htree_pinned false (htreeBuild [fileA]) hash hlen hv
  refine ⟨hash, hv, dir, hparse, ?_, hlook⟩
  rw [htreeParseDir_build [fileA] fileA_printable fileA_ascending hlen] at hparse
  exact (Except.ok.inj hparse).symm

end Smolvfs
