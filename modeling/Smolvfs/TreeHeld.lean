import Smolvfs.GcComplete
import Smolvfs.Holdings
import Smolvfs.TreeStore

/-!
# Whole trees among the holdings

A tree is held whole when its directories are held and are directories, every address in
them is in lower case, and the contents of its files are held as blobs (`TreeHeld`).  In a
depot with such holdings the tree is complete, and where what is held has the address it is
held at, the check goes through it without a report (`TreeHeld.sound`).
-/

namespace Smolvfs

open Octets Walk WriteOnce

/-! ## Directories that are held -/

/-- The directory an object is. -/
def objectDir (obj : Object) : Except Status Dir :=
  if obj.1 = tTree then treeTextLoad false obj.2
  else if obj.1 = tHtree then htreeParseDir false obj.2
  else .error .etype

/-- The object at the address is the directory. -/
def DirHeld (m : Holdings) (hash : Bytes) (dir : Dir) : Prop := ∃ obj, m hash = some obj ∧ objectDir obj = .ok dir

/-- A blob is held. -/
def BlobHeld (m : Holdings) (hash : Bytes) : Prop := ∃ data, m hash = some (tBlob, data)

/-- A directory that is held with all that is below it. -/
inductive TreeHeld (m : Holdings) : Bytes → Prop
  | mk (hash : Bytes) (dir : Dir) (held : DirHeld m hash dir) (lower : ∀ e ∈ dir, LowerHash e.hash)
      (dirs : ∀ e ∈ dir, e.isDir = true → TreeHeld m e.hash)
      (files : ∀ e ∈ dir, e.isDir = false → BlobHeld m e.hash) : TreeHeld m hash

/-- Every object is admitted at the address it is held at. -/
def AllAdmitted (m : Holdings) : Prop := ∀ hash obj, m hash = some obj → Admitted obj hash

theorem DirHeld.unique {m : Holdings} {hash : Bytes} {dir dir' : Dir} (h : DirHeld m hash dir)
    (h' : DirHeld m hash dir') : dir = dir' := by
  obtain ⟨obj, hm, hdir⟩ := h
  obtain ⟨obj', hm', hdir'⟩ := h'
  obtain rfl := Option.some.inj (hm.symm.trans hm')
  exact Except.ok.inj (hdir.symm.trans hdir')

theorem TreeHeld.dir {m : Holdings} {hash : Bytes} (h : TreeHeld m hash) : ∃ dir, DirHeld m hash dir := by
  obtain ⟨_, dir, held, -, -, -⟩ := h
  exact ⟨dir, held⟩

/-- What a directory that is held whole mentions. -/
theorem TreeHeld.entries {m : Holdings} {hash : Bytes} (h : TreeHeld m hash) {dir : Dir} (hd : DirHeld m hash dir) :
    ∀ e ∈ dir, LowerHash e.hash ∧ (e.isDir = true → TreeHeld m e.hash) ∧ (e.isDir = false → BlobHeld m e.hash) := by
  obtain ⟨_, dir', held, lower, dirs, files⟩ := h
  obtain rfl := hd.unique held
  exact fun e he => ⟨lower e he, dirs e he, files e he⟩

section
variable {m m' : Holdings}

theorem DirHeld.mono (hk : Kept m m') {hash : Bytes} {dir : Dir} (h : DirHeld m hash dir) : DirHeld m' hash dir := by
  obtain ⟨obj, hm, hdir⟩ := h
  exact ⟨obj, hk hash obj hm, hdir⟩

theorem BlobHeld.mono (hk : Kept m m') {hash : Bytes} (h : BlobHeld m hash) : BlobHeld m' hash := by
  obtain ⟨data, hm⟩ := h
  exact ⟨data, hk hash _ hm⟩

theorem TreeHeld.mono (hk : Kept m m') {hash : Bytes} (h : TreeHeld m hash) : TreeHeld m' hash := by
  induction h with
  | mk hash dir held lower _ files ih =>
    exact .mk hash dir (held.mono hk) lower ih fun e he hd => (files e he hd).mono hk

end

/-! ## In a depot -/

theorem casTreeLoad_objectDir {cs : Codecs} {st : Store} {hash : Bytes} {obj : Object}
    (h : casOpenObject cs noFaults st hash = .ok obj) : casTreeLoad cs noFaults st hash = objectDir obj := by
  unfold casTreeLoad
  rw [h]
  rfl

theorem fsckDigest_hashed {type : CStr} {data hash : Bytes} (h : casHashObject type data = .ok hash) :
    fsckDigest type data hash = .ok := by
  obtain ⟨hdr, hform, rfl⟩ := casHashObject_spec type data hash h
  exact fsckDigest_of_header type data hdr hform

/-- A directory loads and so do those below it, the contents of its files are there, and every address is in lower
case. -/
inductive WholeTree (cs : Codecs) (st : Store) : Bytes → Prop
  | mk (hash : Bytes) (dir : Dir) (lower : LowerHash hash) (hload : casTreeLoad cs noFaults st hash = .ok dir)
      (dirs : ∀ e ∈ dir, e.isDir = true → WholeTree cs st e.hash)
      (files : ∀ e ∈ dir, e.isDir = false → LowerHash e.hash ∧ ∃ data, casOpen cs noFaults st e.hash = .ok data) :
      WholeTree cs st hash

section
variable {cs : Codecs} {st : Store} {m : Holdings} (h : HoldsIn cs st m)
include h

theorem DirHeld.loads {hash : Bytes} {dir : Dir} (hd : DirHeld m hash dir) :
    casTreeLoad cs noFaults st hash = .ok dir := by
  obtain ⟨obj, hm, hdir⟩ := hd
  rw [casTreeLoad_objectDir ((h.opens (h.there hash obj hm).1 obj).mpr hm), hdir]

theorem BlobHeld.opens {hash : Bytes} (hb : BlobHeld m hash) : ∃ data, casOpen cs noFaults st hash = .ok data := by
  obtain ⟨data, hm⟩ := hb
  refine ⟨data, ?_⟩
  unfold casOpen
  rw [(h.opens (h.there hash _ hm).1 _).mpr hm]
  rfl

/-- What loads is held. -/
theorem HoldsIn.dirHeld {hash : Bytes} (hlow : LowerHash hash) {dir : Dir}
    (hl : casTreeLoad cs noFaults st hash = .ok dir) : DirHeld m hash dir := by
  cases hopen : casOpenObject cs noFaults st hash with
  | error rc =>
    unfold casTreeLoad at hl
    rw [hopen] at hl
    cases hl
  | ok obj =>
    rw [casTreeLoad_objectDir hopen] at hl
    exact ⟨obj, (h.opens hlow obj).mp hopen, hl⟩

/-- A tree that is held whole is complete. -/
theorem TreeHeld.complete {hash : Bytes} (ht : TreeHeld m hash) : DirComplete cs st hash := by
  induction ht with
  | mk hash dir held _ _ files ih => exact .mk hash dir (held.loads h) ih fun e he hd => (files e he hd).opens h

/-- What opens as a blob is held as one. -/
theorem HoldsIn.blobHeld {hash : Bytes} (hlow : LowerHash hash) {data : Bytes}
    (ho : casOpen cs noFaults st hash = .ok data) : BlobHeld m hash := by
  unfold casOpen at ho
  cases hopen : casOpenObject cs noFaults st hash with
  | error rc =>
    rw [hopen] at ho
    cases ho
  | ok obj =>
    obtain ⟨type, bytes⟩ := obj
    rw [hopen] at ho
    dsimp only at ho
    split at ho
    · next ht => exact ⟨bytes, ht ▸ (h.opens hlow _).mp hopen⟩
    · cases ho

theorem WholeTree.held {hash : Bytes} (hw : WholeTree cs st hash) : TreeHeld m hash := by
  induction hw with
  | mk hash dir lower hload dirs files ih =>
    refine .mk hash dir (h.dirHeld lower hload) (fun e he => ?_) ih fun e he hd => ?_
    · cases hd : e.isDir with
      | true =>
        obtain ⟨_, _, hlow, -, -, -⟩ := dirs e he hd
        exact hlow
      | false => exact (files e he hd).1
    · obtain ⟨hlow, data, hopen⟩ := files e he hd
      exact h.blobHeld hlow hopen

/-- The check of a plain object that is held. -/
theorem HoldsIn.fsckObject {hash : Bytes} {obj : Object} (hm : m hash = some obj) (ht : obj.1 ≠ tHtree)
    (had : Admitted obj hash) : casFsckObject cs noFaults st hash = .ok := by
  have hlow := (h.there hash obj hm).1
  have hhash := (casTreeCheckObject_iff false obj.1 obj.2 hash).mp had
  rw [if_neg ht] at hhash
  have hdig := fsckDigest_hashed hhash.1
  have hplain : ¬ casTypeIsReencoded obj.1 = true := by
    unfold casTypeIsReencoded
    simpa using ht
  cases hl : st.loose.lookup hash with
  | some f =>
    have hcopy : looseCopy cs st hash = .ok (obj.1, obj.2) := by
      unfold looseCopy
      rw [hl]
      exact h.looseIs hl hm
    rw [casFsckObject_of_looseCopy cs st hash hlow.valid obj.1 obj.2 hcopy, if_neg hplain, hdig]
  | none =>
    have hcopy : looseCopy cs st hash = .error .enotfound := by
      unfold looseCopy
      rw [hl]
    have hp : st.packed hash = true := by
      by_contra hno
      refine (h.there hash obj hm).2 ⟨?_, by simpa using hno⟩
      unfold Store.hasLoose
      rw [hl]
      rfl
    obtain ⟨held, hheld, hpack⟩ := h.packed hash hlow hp
    obtain rfl := Option.some.inj (hm.symm.trans hheld)
    rw [casFsckObject_of_packCopy cs st hash hlow.valid obj.1 obj.2 hcopy hpack, if_neg hplain, hdig]

/-- And of a directory. -/
theorem HoldsIn.treeVerify {hash : Bytes} {dir : Dir} (hd : DirHeld m hash dir) (had : AllAdmitted m) :
    casTreeVerify cs noFaults st hash = .ok := by
  obtain ⟨obj, hm, hdir⟩ := hd
  have hadm := had hash obj hm
  have hopen := (h.opens (h.there hash obj hm).1 obj).mpr hm
  have hcheck := (casTreeCheckObject_iff false obj.1 obj.2 hash).mp hadm
  obtain ⟨type, data⟩ := obj
  unfold casTreeVerify
  rw [hopen]
  dsimp only at hcheck ⊢
  by_cases ht : type = tTree
  · have hne : type ≠ tHtree := fun hh => tHtree_ne_tTree (hh.symm.trans ht)
    rw [if_neg hne] at hcheck
    rw [if_pos ht, show noFaults (.growDir hash) = false from rfl, if_neg (not_not.mpr (hcheck.2 ht))]
    exact h.fsckObject hm hne hadm
  · rw [if_neg ht]
    by_cases hh : type = tHtree
    · rw [if_pos hh] at hcheck
      rw [if_neg (not_not.mpr hh)]
      exact hcheck
    · unfold objectDir at hdir
      rw [if_neg ht, if_neg hh] at hdir
      cases hdir

/-- **A tree that is held whole is sound.** -/
theorem TreeHeld.sound (had : AllAdmitted m) {hash : Bytes} (ht : TreeHeld m hash) : Sound cs noFaults st hash := by
  induction ht with
  | mk hash dir held _ _ files ih =>
    refine .mk hash dir (h.treeVerify held had) (held.loads h) ih fun e he hd => ?_
    obtain ⟨data, hm⟩ := files e he hd
    exact h.fsckObject hm (show tBlob ≠ tHtree by decide) (had _ _ hm)

end

/-! ## A check of what is sound -/

theorem exists_enough {α : Type} {P : α → Nat → Prop} (l : List α) (h : ∀ a ∈ l, ∃ n, ∀ k, n ≤ k → P a k) :
    ∃ n, ∀ k, n ≤ k → ∀ a ∈ l, P a k := by
  induction l with
  | nil => exact ⟨0, fun _ _ a ha => absurd ha List.not_mem_nil⟩
  | cons x l ih =>
    obtain ⟨n, hn⟩ := h x (by simp)
    obtain ⟨n', hn'⟩ := ih fun a ha => h a (by simp [ha])
    refine ⟨max n n', fun k hk a ha => ?_⟩
    rcases List.mem_cons.mp ha with rfl | ha
    · exact hn k (by omega)
    · exact hn' k (by omega) a ha

section
variable {cs : Codecs} {flt : Faults} {st : Store} (fn : List FsckReport → Bool)

theorem fsckEntries_sound {child : Bytes → Bytes → FsckState → Option (Bool × FsckState)} {path : Bytes} {dir : Dir}
    (hdirs : ∀ e ∈ dir, e.isDir = true → ∀ path s, child path e.hash s = some (false, s))
    (hfiles : ∀ e ∈ dir, e.isDir = false → casFsckObject cs flt st e.hash = .ok) (s : FsckState) :
    fsckEntries cs flt st fn child path dir s = some (false, s) := by
  induction dir with
  | nil => rfl
  | cons e dir ih =>
    have hentry : (if e.isDir = true then child (childPath path e.name) e.hash s
        else some (fsckLeaf cs flt st fn (childPath path e.name) e.hash s)) = some (false, s) := by
      cases hd : e.isDir with
      | true => exact hdirs e (by simp) hd _ s
      | false =>
        unfold fsckLeaf
        rw [hfiles e (by simp) hd]
        rfl
    unfold fsckEntries
    simp only [hentry]
    exact ih (fun x hx => hdirs x (by simp [hx])) fun x hx => hfiles x (by simp [hx])

/-- **What is sound is gone through without a report**, given enough depth. -/
theorem Sound.clean {hash : Bytes} (h : Sound cs flt st hash) :
    ∃ n, ∀ fuel, n ≤ fuel → ∀ path s, fsckTree cs flt st fn fuel path hash s = some (false, s) := by
  induction h with
  | mk hash dir hver hload _ files ih =>
    have hdirs : ∀ e ∈ dir, ∃ n, ∀ fuel, n ≤ fuel →
        e.isDir = true → ∀ path s, fsckTree cs flt st fn fuel path e.hash s = some (false, s) := by
      intro e he
      cases hd : e.isDir with
      | true =>
        obtain ⟨n, hn⟩ := ih e he hd
        exact ⟨n, fun fuel hfuel _ => hn fuel hfuel⟩
      | false => exact ⟨0, fun _ _ hdir => by cases hdir⟩
    obtain ⟨n, hn⟩ := exists_enough dir hdirs
    refine ⟨n + 1, fun fuel hfuel path s => ?_⟩
    obtain ⟨fuel, rfl⟩ : ∃ k, fuel = k + 1 := ⟨fuel - 1, by omega⟩
    unfold fsckTree
    rw [hver, hload]
    exact fsckEntries_sound fn (hn fuel (by omega)) files s

/-- The check of refs whose roots are sound. -/
theorem casTreeFsck_clean {ct : CasTree}
    (h : ∀ name hash, casTreeRefRead flt ct.refs name = .ok hash → Sound cs flt ct.store hash) :
    ∃ n, ∀ fuel, n ≤ fuel → casTreeFsck cs flt fn fuel ct = some (.ok, []) := by
  have hrefs : ∀ name ∈ casTreeRefForeach flt ct.refs, ∃ n, ∀ fuel, n ≤ fuel →
      ∀ s, fsckRef cs flt ct.store fn ct.refs fuel s name = some s := by
    intro name _
    cases hread : casTreeRefRead flt ct.refs name with
    | error rc =>
      refine ⟨0, fun fuel _ s => ?_⟩
      unfold fsckRef
      rw [hread]
    | ok hash =>
      obtain ⟨n, hn⟩ := (h name hash hread).clean fn
      refine ⟨n, fun fuel hfuel s => ?_⟩
      unfold fsckRef
      rw [hread]
      show (fsckTree cs flt ct.store fn fuel [47] hash s).map Prod.snd = some s
      rw [hn fuel hfuel]
      rfl
  obtain ⟨n, hn⟩ := exists_enough _ hrefs
  refine ⟨n, fun fuel hfuel => ?_⟩
  have hall := hn fuel hfuel
  have hfold : ∀ s, (casTreeRefForeach flt ct.refs).foldlM (fsckRef cs flt ct.store fn ct.refs fuel) s = some s := by
    intro s
    generalize casTreeRefForeach flt ct.refs = names at hall
    induction names with
    | nil => rfl
    | cons name names ih =>
      rw [List.foldlM_cons, hall name (by simp)]
      exact ih fun x hx => hall x (by simp [hx])
  unfold casTreeFsck
  rw [hfold]
  rfl

end

/-! ## Objects that do not collide -/

/-- No two of the objects have one address and different contents. -/
def Apart (U : Object → Prop) : Prop := ∀ a b, U a → U b → ¬ Collide (canonical a) (canonical b)

/-- What is held is of the objects, and each is admitted at its address. -/
structure HeldOf (U : Object → Prop) (m : Holdings) : Prop where
  known : ∀ hash obj, m hash = some obj → U obj
  admitted : AllAdmitted m

theorem canonical_plain {obj : Object} (h : obj.1 ≠ tHtree) : canonical obj = obj := by
  unfold canonical
  rw [if_neg h]

/-- What is a blob in canonical form is that blob. -/
theorem eq_of_canonical_blob {obj : Object} {data : Bytes} (h : canonical obj = (tBlob, data)) :
    obj = (tBlob, data) := by
  by_cases ht : obj.1 = tHtree
  · have hne : tHtree ≠ tBlob ∧ tTree ≠ tBlob := by decide
    unfold canonical at h
    rw [if_pos ht] at h
    split at h
    · exact absurd (Prod.mk.inj h).1 hne.2
    · rw [h] at ht
      exact absurd ht.symm hne.1
  · rwa [canonical_plain ht] at h

/-- What is a directory's text in canonical form is the directory. -/
theorem objectDir_of_canonical {obj : Object} {dir : Dir} (hp : ∀ e ∈ dir, e.Printable) (hs : NamesAscending dir)
    (h : canonical obj = (tTree, treeSerialize dir)) : objectDir obj = .ok dir := by
  by_cases ht : obj.1 = tHtree
  · unfold canonical at h
    rw [if_pos ht] at h
    split at h
    · next dir' hparse =>
      obtain ⟨hp', hs'⟩ := htreeParseDir_listed false obj.2 dir' hparse
      obtain rfl := treeSerialize_inj dir' dir hp' hp hs' hs (Prod.mk.inj h).2
      unfold objectDir
      rw [if_neg (fun htree => tHtree_ne_tTree (ht.symm.trans htree)), if_pos ht, hparse]
    · rw [h] at ht
      exact absurd ht.symm tHtree_ne_tTree
  · rw [canonical_plain ht] at h
    rw [h]
    unfold objectDir
    rw [if_pos rfl]
    exact treeTextLoad_serialize dir hp hs

section
variable {U : Object → Prop} {m : Holdings} (hm : HeldOf U m) {hash : Bytes} {obj : Object} (hobj : U obj)
  (had : Admitted obj hash)
include hm hobj had

theorem HeldOf.put : HeldOf U (put m hash obj) := by
  have hcases : ∀ other held, WriteOnce.put m hash obj other = some held →
      m other = some held ∨ (other = hash ∧ held = obj) := by
    intro other held hheld
    cases hn : m hash with
    | some x =>
      rw [put_held m hash obj hn] at hheld
      exact .inl hheld
    | none =>
      rw [put_free m hash obj hn] at hheld
      by_cases hne : other = hash
      · rw [hne, Function.update_self] at hheld
        exact .inr ⟨hne, (Option.some.inj hheld).symm⟩
      · rw [Function.update_of_ne hne] at hheld
        exact .inl hheld
  refine ⟨fun other held hheld => ?_, fun other held hheld => ?_⟩
  · rcases hcases other held hheld with h | ⟨-, rfl⟩
    · exact hm.known other held h
    · exact hobj
  · rcases hcases other held hheld with h | ⟨rfl, rfl⟩
    · exact hm.admitted other held h
    · exact had

/-- **What is at the address then** is the object, but for the form of a directory. -/
theorem HeldOf.put_canonical (hU : Apart U) :
    ∃ held, WriteOnce.put m hash obj hash = some held ∧ canonical held = canonical obj := by
  cases hn : m hash with
  | none => exact ⟨obj, by rw [put_free m hash obj hn, Function.update_self], rfl⟩
  | some held =>
    refine ⟨held, by rw [put_held m hash obj hn, hn], ?_⟩
    by_contra hne
    exact hU held obj (hm.known hash held hn) hobj
      ⟨hne, hash, casHashObject_canonical held hash (hm.admitted hash held hn), casHashObject_canonical obj hash had⟩

end

theorem HeldOf.putAll {U : Object → Prop} {m : Holdings} (hm : HeldOf U m) {entries : List (Bytes × Object)}
    (h : ∀ e ∈ entries, U e.2 ∧ Admitted e.2 e.1) : HeldOf U (putAll m entries) := by
  induction entries generalizing m with
  | nil => exact hm
  | cons e entries ih =>
    obtain ⟨hobj, had⟩ := h e (by simp)
    exact ih (hm.put hobj had) fun x hx => h x (by simp [hx])

theorem admitted_blob {data hash : Bytes} (h : casHashObject tBlob data = .ok hash) : Admitted (tBlob, data) hash := by
  refine (casTreeCheckObject_iff false _ _ _).mpr ?_
  rw [if_neg (show tBlob ≠ tHtree by decide)]
  exact ⟨h, fun ht => absurd ht (show tBlob ≠ tTree by decide)⟩

theorem admitted_text {dir : Dir} {hash : Bytes} (hp : ∀ e ∈ dir, e.Printable) (hs : NamesAscending dir)
    (h : casHashObject tTree (treeSerialize dir) = .ok hash) : Admitted (tTree, treeSerialize dir) hash := by
  refine (casTreeCheckObject_iff false _ _ _).mpr ?_
  rw [if_neg (Ne.symm tHtree_ne_tTree)]
  exact ⟨h, fun _ => treeTextVerify_serialize dir hp hs⟩

/-! ## Collecting -/

/-- The holdings that a store still has a copy of. -/
def leftIn (st : Store) (m : Holdings) : Holdings := fun hash => if Fresh st hash then none else m hash

theorem leftIn_some {st : Store} {m : Holdings} {hash : Bytes} {obj : Object} (h : leftIn st m hash = some obj) :
    ¬ Fresh st hash ∧ m hash = some obj := by
  unfold leftIn at h
  split at h
  · cases h
  · next hf => exact ⟨hf, h⟩

theorem leftIn_of_left {st : Store} {m : Holdings} {hash : Bytes} (h : ¬ Fresh st hash) : leftIn st m hash = m hash :=
  if_neg h

theorem HeldOf.left {U : Object → Prop} {m : Holdings} (hm : HeldOf U m) (st : Store) : HeldOf U (leftIn st m) where
  known hash obj h := hm.known hash obj (leftIn_some h).2
  admitted hash obj h := hm.admitted hash obj (leftIn_some h).2

/-- Copies of what was held are copies of what is left. -/
theorem CopiesOf.left {cs : Codecs} {st : Store} {m : Holdings} (h : CopiesOf cs st m)
    (hlow : ∀ hash obj, m hash = some obj → LowerHash hash) : HoldsIn cs st (leftIn st m) where
  loose hash f hl := by
    obtain ⟨hlow, obj, hm, hread⟩ := h.loose hash f hl
    refine ⟨hlow, obj, (leftIn_of_left fun hf => ?_).trans hm, hread⟩
    unfold Fresh Store.hasLoose at hf
    rw [hl] at hf
    cases hf.1
  packed hash hl hp := by
    obtain ⟨obj, hm, hcopy⟩ := h.packed hash hl hp
    refine ⟨obj, (leftIn_of_left fun hf => ?_).trans hm, hcopy⟩
    rw [hf.2] at hp
    cases hp
  listed := h.listed
  there hash obj hm := ⟨hlow hash obj (leftIn_some hm).2, (leftIn_some hm).1⟩

theorem LosesOnly.synced {P : Bytes → Prop} {st st' : Store} (hfrom : LosesOnly P st st')
    (h : casReloadPack noFaults st = st) : casReloadPack noFaults st' = st' := by
  have hpack : casPackOpen false (st'.file packDat) = st'.pack := by
    rw [hfrom.file, hfrom.handle]
    exact congrArg Store.pack h
  show { st' with pack := casPackOpen false (st'.file packDat) } = st'
  rw [hpack]

theorem synced_reload (st : Store) :
    casReloadPack noFaults (casReloadPack noFaults st) = casReloadPack noFaults st := rfl

/-- Copies that agree with what is held agree with one another. -/
theorem HoldsIn.agree {cs : Codecs} {st : Store} {m : Holdings} (h : HoldsIn cs st m) : CopiesAgree cs st := by
  intro hash obj hpack hl
  obtain ⟨f, hf⟩ := Option.isSome_iff_exists.mp hl
  obtain ⟨hlow, held, hm, hread⟩ := h.loose hash f hf
  have hopen := casOpenObject_of_packCopy cs st hash hlow.valid obj hpack
  obtain rfl := Option.some.inj (hm.symm.trans ((h.opens hlow obj).mp hopen))
  unfold looseCopy
  rw [hf]
  exact hread

/-- What a collection may compress is within the reader's limits. -/
def GcCall.Fits (cs : Codecs) (m : Holdings) : GcCall → Prop
  | .gc => True
  | .gcPack policy codec => PackFits cs policy codec m

section
variable {cs : Codecs} (hr : cs.RoundTrips) {ct : CasTree} {m : Holdings} (h : HoldsIn cs ct.store m)
  (hsync : casReloadPack noFaults ct.store = ct.store) {call : GcCall} (hfits : call.Fits cs m) (grace now : Int)
  (fn : Nat → Bytes → Bool)
include hr h hsync hfits

/-- **What a collection leaves**, however it ends, are copies of what was held, and the pack that is open is the
one on disk. -/
theorem GcCall.leaves : CopiesOf cs (call.run cs noFaults ct grace now fn).2 m ∧
    casReloadPack noFaults (call.run cs noFaults ct grace now fn).2 = (call.run cs noFaults ct grace now fn).2 := by
  cases call with
  | gc =>
    unfold GcCall.run casTreeGc
    cases hm : markRefs cs noFaults ct with
    | error rc => exact ⟨h.toCopiesOf, hsync⟩
    | ok reachable =>
      have hloses := sweep_loses noFaults reachable (gcCutoff grace now) fn ct.store
      exact ⟨h.toCopiesOf.loses hloses, hloses.synced hsync⟩
  | gcPack policy codec =>
    unfold GcCall.run casTreeGcPack
    cases hm : markRefs cs noFaults ct with
    | error rc => exact ⟨h.toCopiesOf, hsync⟩
    | ok reachable =>
      simp only []
      cases hc : casPackCreateFiltered cs noFaults ct.store packDat policy codec (hashSetContains reachable) with
      | mk rc st =>
        by_cases hok : rc = .ok
        · obtain rfl := hok
          simp only []
          -- the pack that the reclaim opens has copies of what was held
          have hdisk : CopiesOf cs (casReloadPack noFaults st) m ∧
              (casPackOpen false (st.file packDat) = none → casReloadPack noFaults st = st) := by
            rcases packCreate_ok cs noFaults ct.store st packDat policy codec _ hc with
              ⟨-, rfl⟩ | ⟨es, -, hbins, hes, hpok, hs, rfl⟩
            · exact ⟨hsync.symm ▸ h.toCopiesOf, fun _ => hsync⟩
            · rw [show casPackOpen (noFaults .openPack) (ct.store.file packDat) = ct.store.pack from
                congrArg Store.pack hsync] at hbins hes
              refine ⟨h.repacked_copies hr hfits hpok hs hbins hes, fun hnone => ?_⟩
              rw [setFile_self, casPackOpen_image es hpok] at hnone
              cases hnone
          have hreclaimed : CopiesOf cs (casPackReclaim cs noFaults st packDat).1 m ∧
              casReloadPack noFaults (casPackReclaim cs noFaults st packDat).1 =
                (casPackReclaim cs noFaults st packDat).1 := by
            rcases casPackReclaim_spec cs noFaults st packDat with ⟨hsame, hnone⟩ | ⟨pack, -, hfrom⟩
            · rw [hsame]
              exact ⟨hdisk.2 hnone ▸ hdisk.1, hdisk.2 hnone⟩
            · exact ⟨hdisk.1.loses hfrom, hfrom.synced (synced_reload st)⟩
          have hloses := sweep_loses noFaults reachable (gcCutoff grace now) fn
            (casPackReclaim cs noFaults st packDat).1
          exact ⟨hreclaimed.1.loses hloses, hloses.synced hreclaimed.2⟩
        · obtain rfl := packCreate_failed cs noFaults ct.store st packDat policy codec _ rc hc hok
          cases rc with
          | ok => exact absurd rfl hok
          | _ => exact ⟨h.toCopiesOf, hsync⟩

/-- So the depot then holds what there is a copy of. -/
theorem GcCall.holds : Holds cs (call.run cs noFaults ct grace now fn).2
    (leftIn (call.run cs noFaults ct grace now fn).2 m) := by
  obtain ⟨hcopies, hsynced⟩ := GcCall.leaves hr h hsync hfits grace now fn
  exact (hcopies.left fun hash obj hm => (h.there hash obj hm).1).synced hsynced

variable (hroots : ∀ r ∈ logRoots noFaults ct, TreeHeld m r)
include hroots

/-- **What is reached from the logs is left.** -/
theorem GcCall.left_reached {hash : Bytes} {obj : Object} (hm : m hash = some obj) (hreach : Reachable cs ct hash) :
    ¬ Fresh (call.run cs noFaults ct grace now fn).2 hash := by
  have hcomplete : ∀ r ∈ logRoots noFaults ct, DirComplete cs ct.store r := fun r hr => (hroots r hr).complete h
  obtain ⟨hlow, hf⟩ := h.there hash obj hm
  have hopen := (h.opens hlow obj).mpr hm
  have hstays : casOpenObject cs noFaults (call.run cs noFaults ct grace now fn).2 hash = .ok obj →
      ¬ Fresh (call.run cs noFaults ct grace now fn).2 hash :=
    fun hread hf => casOpenObject_absent cs _ hash hf.1 hf.2 obj hread
  cases call with
  | gc => exact hstays (complete_gc_reads hcomplete grace now fn hreach hopen)
  | gcPack policy codec =>
    by_cases hp : (GcCall.gcPack policy codec).PackFails cs noFaults ct
    · obtain ⟨rc, -, hrun⟩ := gc_pack_failed cs noFaults ct _ grace now fn (complete_mark hcomplete) hp
      rw [hrun]
      exact hf
    · have hok := gc_completes cs noFaults ct _ grace now fn (complete_mark hcomplete) hp
      refine hstays ((gcPack_read cs ct hr grace now fn (congrArg Store.pack hsync).symm h.agree hash obj hopen
        policy codec hok).1 ⟨fun _ => ⟨fun f hl => ?_, fun form payload _ _ henc => ?_⟩, fun hno => ?_⟩)
      · rw [hlow.toHex_binOf] at hl
        exact h.looseIs hl hm
      · exact hfits hash obj payload hm henc
      · -- it is one of those that are packed anew
        refine absurd ⟨h.packs hm, ?_⟩ hno
        rw [hlow.toHex_binOf]
        exact complete_unshadowed hcomplete hreach

/-- **A collection leaves the trees that the logs name whole.** -/
theorem GcCall.left_tree {hash : Bytes} (ht : TreeHeld m hash)
    (hreach : Reach (treeKids cs noFaults ct.store) (fun _ => True) (logRoots noFaults ct) (hash, true)) :
    TreeHeld (leftIn (call.run cs noFaults ct grace now fn).2 m) hash := by
  have hleft : ∀ other obj b, m other = some obj →
      Reach (treeKids cs noFaults ct.store) (fun _ => True) (logRoots noFaults ct) (other, b) →
        leftIn (call.run cs noFaults ct grace now fn).2 m other = some obj := fun other obj b hm hr' =>
    (leftIn_of_left (GcCall.left_reached hr h hsync hfits grace now fn hroots hm ⟨b, hr'⟩)).trans hm
  induction ht with
  | mk hash dir held lower _ files ih =>
    have hkid : ∀ e ∈ dir, Reach (treeKids cs noFaults ct.store) (fun _ => True) (logRoots noFaults ct)
        (e.hash, e.isDir) := by
      intro e he
      refine .kid hreach trivial ?_
      unfold treeKids
      rw [held.loads h]
      exact List.mem_map_of_mem he
    refine .mk hash dir ?_ lower (fun e he hd => ih e he hd (hd ▸ hkid e he)) fun e he hd => ?_
    · obtain ⟨obj, hm, hdir⟩ := held
      exact ⟨obj, hleft hash obj true hm hreach, hdir⟩
    · obtain ⟨data, hm⟩ := files e he hd
      exact ⟨data, hleft e.hash _ _ hm (hkid e he)⟩

end

end Smolvfs
