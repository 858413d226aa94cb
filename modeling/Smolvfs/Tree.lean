import Smolvfs.Copies
import Smolvfs.HtreeVerify

/-!
# Trees in a store

`cas_tree_store`, `cas_tree_load`, `cas_tree_lookup`, `cas_tree_verify`,
`cas_tree_check_object` and `cas_tree_put_checked`.

`casTreeCheckObject_iff` says what the check admits: an htree that encodes a
directory whose text has the address, or an object that hashes to it and, when it
is a tree, is spelled as the serializer spells it.
-/

namespace Smolvfs

open Octets

/-- The loop of `cas_tree_store` over neighbours: two entries under one name. -/
def repeatsName : Dir → Bool
  | a :: b :: rest => nameCmp a.name b.name == .eq || repeatsName (b :: rest)
  | _ => false

/-- `cas_tree_store`; `useHtree` is the flag `CAS_TREE_USE_HTREE`. -/
def casTreeStore (flt : Faults) (st : Store) (useHtree : Bool) (dir : Dir) (now : Int) :
    Except Status (Store × Bytes) :=
  let dir := sortEntries dir
  if repeatsName dir then .error .err
  else if flt .treeBuf then .error .enomem
  else
    let text := treeSerialize dir
    if useHtree then
      match casHashObject tTree text with
      | .error rc => .error rc
      | .ok hash =>
        if casExists st hash then .ok (st, hash)
        else if flt .htreeBuf then .error .enomem
        else (casPutObjectAt flt st tHtree (htreeBuild dir) hash now).map fun st' => (st', hash)
    else casPutObject flt st tTree text now

/-- `cas_tree_load` -/
def casTreeLoad (cs : Codecs) (flt : Faults) (st : Store) (hash : Bytes) : Except Status Dir :=
  match casOpenObject cs flt st hash with
  | .error rc => .error rc
  | .ok (type, data) =>
    if type = tTree then treeTextLoad (flt (.growDir hash)) data
    else if type = tHtree then htreeParseDir (flt (.growDir hash)) data
    else .error .etype

/-- `cas_tree_lookup` -/
def casTreeLookup (cs : Codecs) (flt : Faults) (st : Store) (treeHash : Bytes) (name : CStr) :
    Except Status Entry :=
  match casOpenObject cs flt st treeHash with
  | .error rc => .error rc
  | .ok (type, data) =>
    if type = tHtree then htreeLookupEntry data name
    else if type = tTree then treeTextLookup data name
    else .error .etype

/-- `cas_tree_verify` -/
def casTreeVerify (cs : Codecs) (flt : Faults) (st : Store) (hash : Bytes) : FsckStatus :=
  match casOpenObject cs flt st hash with
  | .error .enotfound => .ioerr
  | .error .etype => .nocodec
  | .error _ => .corrupt
  | .ok (type, data) =>
    if type = tTree then
      if treeTextVerify (flt (.growDir hash)) data ≠ .ok then treeTextVerify (flt (.growDir hash)) data
      else casFsckObject cs flt st hash
    else if type ≠ tHtree then .foreign
    else htreeVerify (flt (.growDir hash)) data hash

/-- `cas_tree_check_object`; `noMem` says that its allocations fail. -/
def casTreeCheckObject (noMem : Bool) (type : CStr) (data hash : Bytes) : Status :=
  if type = tHtree then (if htreeVerify noMem data hash = .ok then .ok else .err)
  else
    match casHashObject type data with
    | .error _ => .err
    | .ok computed =>
      if computed ≠ hash then .err
      else if type = tTree ∧ treeTextVerify noMem data ≠ .ok then .err
      else .ok

/-- `cas_tree_put_checked` -/
def casTreePutChecked (flt : Faults) (st : Store) (type : CStr) (data hash : Bytes) (now : Int) :
    Except Status Store :=
  if casTreeCheckObject (flt (.growDir hash)) type data hash ≠ .ok then .error .err
  else casPutObjectAt flt st type data hash now

/-- What is admitted at an address. -/
def Admitted (obj : Object) (hash : Bytes) : Prop := casTreeCheckObject false obj.1 obj.2 hash = .ok

instance (obj : Object) (hash : Bytes) : Decidable (Admitted obj hash) := inferInstanceAs (Decidable (_ = _))

theorem casTreeCheckObject_iff (noMem : Bool) (type : CStr) (data hash : Bytes) :
    casTreeCheckObject noMem type data hash = .ok ↔
      if type = tHtree then htreeVerify noMem data hash = .ok
      else casHashObject type data = .ok hash ∧ (type = tTree → treeTextVerify noMem data = .ok) := by
  unfold casTreeCheckObject
  by_cases ht : type = tHtree
  · rw [if_pos ht, if_pos ht]
    split <;> simp_all
  · rw [if_neg ht, if_neg ht]
    cases hh : casHashObject type data with
    | error e => simp
    | ok computed =>
      simp only [Except.ok.injEq]
      by_cases hc : computed = hash
      · rw [if_neg (by simpa using hc)]
        split
        · next h => simp [hc, h.1, h.2]
        · next h => simpa [hc] using fun h1 => of_not_not fun h2 => h ⟨h1, h2⟩
      · rw [if_pos hc]
        simp [hc]

/-- A memory failure never admits anything. -/
theorem htreeVerify_noMem (noMem : Bool) (data hash : Bytes) (h : htreeVerify noMem data hash = .ok) :
    htreeVerify false data hash = .ok := by
  cases noMem with
  | false => exact h
  | true =>
    unfold htreeVerify at h
    split at h <;> cases h

theorem treeTextVerify_noMem (noMem : Bool) (data : Bytes) (h : treeTextVerify noMem data = .ok) :
    treeTextVerify false data = .ok := by
  cases noMem with
  | false => exact h
  | true =>
    unfold treeTextVerify at h
    split at h <;> cases h

/-- What a check passes, it passes with memory to spare. -/
theorem admitted_of_check (noMem : Bool) (type : CStr) (data hash : Bytes)
    (h : casTreeCheckObject noMem type data hash = .ok) : Admitted (type, data) hash := by
  rw [casTreeCheckObject_iff] at h
  refine (casTreeCheckObject_iff false type data hash).mpr ?_
  split
  · next ht =>
    rw [if_pos ht] at h
    exact htreeVerify_noMem noMem data hash h
  · next ht =>
    rw [if_neg ht] at h
    exact ⟨h.1, fun htree => treeTextVerify_noMem noMem data (h.2 htree)⟩

/-- Text that passes its check is the text of an ascending directory. -/
theorem treeTextVerify_ok (data : Bytes) (h : treeTextVerify false data = .ok) :
    ∃ dir, treeTextLoad false data = .ok dir ∧ treeSerialize dir = data := by
  unfold treeTextVerify at h
  cases hl : treeTextLoad false data with
  | error e => simp [hl] at h
  | ok dir =>
    simp only [hl, Bool.false_eq_true, if_false] at h
    split at h
    · next ht => exact ⟨dir, rfl, ht⟩
    · cases h

/-- The object an address commits to: for an htree the text of its directory, else the object itself. -/
def canonical (obj : Object) : Object :=
  if obj.1 = tHtree then
    match htreeParseDir false obj.2 with
    | .ok dir => (tTree, treeSerialize dir)
    | .error _ => obj
  else obj

/-- An admitted object's canonical form hashes to the address. -/
theorem casHashObject_canonical (obj : Object) (hash : Bytes) (h : Admitted obj hash) :
    casHashObject (canonical obj).1 (canonical obj).2 = .ok hash := by
  obtain ⟨type, data⟩ := obj
  have hc := (casTreeCheckObject_iff false type data hash).mp h
  unfold canonical
  split at hc
  · next ht =>
    obtain ⟨dir, hparse, hh, -⟩ := htreeVerify_ok false data hash hc
    rw [if_pos ht, hparse]
    exact hh
  · next ht =>
    rw [if_neg ht]
    exact hc.1

/-- The canonical form of what an address admits is admitted there as well. -/
theorem admitted_canonical (obj : Object) (hash : Bytes) (h : Admitted obj hash) : Admitted (canonical obj) hash := by
  by_cases ht : obj.1 = tHtree
  · have hc := (casTreeCheckObject_iff false obj.1 obj.2 hash).mp h
    rw [if_pos ht] at hc
    obtain ⟨dir, hparse, hh, -⟩ := htreeVerify_ok false obj.2 hash hc
    obtain ⟨hp, hs⟩ := htreeParseDir_listed false obj.2 dir hparse
    unfold canonical
    rw [if_pos ht, hparse]
    refine (casTreeCheckObject_iff false _ _ hash).mpr ?_
    rw [if_neg (show tTree ≠ tHtree by decide)]
    exact ⟨hh, fun _ => treeTextVerify_serialize dir hp hs⟩
  · unfold canonical
    rw [if_neg ht]
    exact h

/-- **The objects an address admits**: the text, or the htree of it, unless two texts collide. -/
theorem admitted_cases (obj : Object) (dir : Dir) (hash : Bytes) (hp : ∀ e ∈ dir, e.Printable)
    (hs : NamesAscending dir) (hh : casHashObject tTree (treeSerialize dir) = .ok hash)
    (h : Admitted obj hash) :
    obj = (tTree, treeSerialize dir) ∨ obj = (tHtree, htreeBuild dir) ∨
      Collide (canonical obj) (tTree, treeSerialize dir) := by
  have hcan := casHashObject_canonical obj hash h
  by_cases heq : canonical obj = (tTree, treeSerialize dir)
  · obtain ⟨type, data⟩ := obj
    have hc := (casTreeCheckObject_iff false type data hash).mp h
    unfold canonical at heq
    split at hc
    · next ht =>
      obtain ⟨dir', hparse, -, hb⟩ := htreeVerify_ok false data hash hc
      obtain ⟨hp', hs'⟩ := htreeParseDir_listed false data dir' hparse
      rw [if_pos ht, hparse] at heq
      refine .inr (.inl ?_)
      rw [ht, hb, treeSerialize_inj dir' dir hp' hp hs' hs (Prod.mk.inj heq).2]
    · next ht =>
      rw [if_neg ht] at heq
      exact .inl heq
  · exact .inr (.inr ⟨heq, hash, hcan, hh⟩)

end Smolvfs
