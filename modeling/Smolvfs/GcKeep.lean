import Smolvfs.GcMark

/-!
# What a collection keeps

A hash is reachable when a log names it or a tree that is reachable as a root or
through a directory entry does.  The mark meets a hash only by a way that goes
into no tree whose first mention was a leaf's (`Unshadowed`), so a directory that
is first seen as a file's content hides what it holds.

`gc_keeps_reachable_iff`: a collection that returns `CAS_OK` keeps every reachable
object readable exactly when each of them is packed, or is not swept, or goes
into the new pack in a form that still reads.
-/

namespace Smolvfs

open Octets Growth Walk

/-! ## The sweep -/

section
variable (flt : Faults) (reachable : HashSet) (cutoff : Int) (fn : Nat → Bytes → Bool)

theorem sweepSpares_congr (st st' : Store) (hash : Bytes) (hl : st'.loose.lookup hash = st.loose.lookup hash) :
    sweepSpares flt reachable cutoff st' hash = sweepSpares flt reachable cutoff st hash := by
  unfold sweepSpares casObjectMtime
  rw [hl]

theorem sweepVisitor_store (sw : Store × Nat) (hash : Bytes) :
    (sweepVisitor flt reachable cutoff fn sw hash).1.1 =
      if sweepSpares flt reachable cutoff sw.1 hash then sw.1 else (casRemove flt sw.1 hash).2 := by
  unfold sweepVisitor
  split
  · rfl
  · cases h : casRemove flt sw.1 hash with
    | mk rc st => cases rc <;> rfl

/-- A store that has lost names of the list which are not spared. -/
abbrev SweptFrom (names : List Bytes) (st : Store) : Store → Prop :=
  LosesOnly (fun hash => hash ∈ names ∧ sweepSpares flt reachable cutoff st hash = false) st

theorem sweepVisitor_step (names : List Bytes) (st : Store) (sw : Store × Nat) (hash : Bytes) (hm : hash ∈ names)
    (h : SweptFrom flt reachable cutoff names st sw.1) :
    SweptFrom flt reachable cutoff names st (sweepVisitor flt reachable cutoff fn sw hash).1.1 := by
  rw [sweepVisitor_store]
  by_cases hs : sweepSpares flt reachable cutoff sw.1 hash = true
  · rw [if_pos hs]
    exact h
  · rw [if_neg hs]
    refine h.remove flt hash ⟨hm, ?_⟩
    rcases h.loose hash with hl | ⟨-, -, hp⟩
    · rw [← sweepSpares_congr flt reachable cutoff st sw.1 hash hl]
      simpa using hs
    · exact hp

theorem sweepFrom_loses (names : List Bytes) (st : Store) (hashes : List Bytes) (hsub : hashes ⊆ names)
    (sw : Store × Nat) (h : SweptFrom flt reachable cutoff names st sw.1) :
    SweptFrom flt reachable cutoff names st (sweepFrom flt reachable cutoff fn sw hashes).1 := by
  induction hashes generalizing sw with
  | nil => exact h
  | cons hash hashes ih =>
    have hstep := sweepVisitor_step flt reachable cutoff fn names st sw hash (hsub (by simp)) h
    unfold sweepFrom
    cases hv : sweepVisitor flt reachable cutoff fn sw hash with
    | mk sw' stop =>
      rw [hv] at hstep
      cases stop with
      | true => exact hstep
      | false => exact ih (fun x hx => hsub (by simp [hx])) sw' hstep

/-- **A sweep** loses listed names that are not spared, and nothing else. -/
theorem sweep_loses (st : Store) :
    SweptFrom flt reachable cutoff (casForeach flt st).1 st (sweep flt reachable cutoff fn st).1 :=
  sweepFrom_loses flt reachable cutoff fn _ st _ (List.Subset.refl _) (st, 0) (LosesOnly.refl _ _)

/-- It loses all of them that can be unlinked when the callback lets it go on. -/
theorem sweepFrom_gone (hgo : ∀ n hash, fn n hash = false) (names : List Bytes) (st : Store) (hashes : List Bytes)
    (hsub : hashes ⊆ names) (sw : Store × Nat) (h : SweptFrom flt reachable cutoff names st sw.1) (hash : Bytes)
    (hm : hash ∈ hashes) (hv : validHash hash = true) (hu : flt (.unlinkObj hash) = false)
    (hs : sweepSpares flt reachable cutoff st hash = false) :
    (sweepFrom flt reachable cutoff fn sw hashes).1.loose.lookup hash = none := by
  induction hashes generalizing sw with
  | nil => cases hm
  | cons x xs ih =>
    have hstep := sweepVisitor_step flt reachable cutoff fn names st sw x (hsub (by simp)) h
    have hone := sweepVisitor_store flt reachable cutoff fn sw x
    have hsub' : xs ⊆ names := fun y hy => hsub (by simp [hy])
    have hcont : (sweepVisitor flt reachable cutoff fn sw x).2 = false := by
      unfold sweepVisitor
      split
      · rfl
      · cases hr : casRemove flt sw.1 x with
        | mk rc st' =>
          cases rc <;> simp [hgo]
    unfold sweepFrom
    cases hvis : sweepVisitor flt reachable cutoff fn sw x with
    | mk sw' stop =>
      rw [hvis] at hstep hone hcont
      obtain rfl : stop = false := hcont
      rcases List.mem_cons.mp hm with rfl | hm
      · -- once it is gone it stays so
        have hgone : sw'.1.loose.lookup hash = none := by
          rw [hone]
          split
          · next hsp =>
            rcases h.loose hash with hl | ⟨hl, -⟩
            · rw [sweepSpares_congr flt reachable cutoff st sw.1 hash hl, hs] at hsp
              cases hsp
            · exact hl
          · exact casRemove_unlinked flt sw.1 hash hv hu
        have hrest := sweepFrom_loses flt reachable cutoff fn names sw'.1 xs hsub' sw' (LosesOnly.refl _ _)
        rcases hrest.loose hash with hl | ⟨hl, -⟩
        · exact hl.trans hgone
        · exact hl
      · exact ih hsub' sw' hstep hm

end

/-! ## Reachability -/

section
variable (cs : Codecs) (ct : CasTree)

/-- A log names the hash, or a tree does that is reachable as a root or through a directory entry. -/
def Reachable (hash : Bytes) : Prop :=
  ∃ b, Reach (treeKids cs noFaults ct.store) (fun _ => True) (logRoots noFaults ct) (hash, b)

/-- The first mention of the hash, depth first through the refs and their trees, is a leaf's. -/
def LeafFirst (hash : Bytes) : Prop := NamedFirst (markWalk cs noFaults ct) hash

/-- The hash is reachable by a way that goes into no tree first mentioned as a leaf. -/
def Unshadowed (hash : Bytes) : Prop :=
  ∃ b, Reach (treeKids cs noFaults ct.store) (fun h => ¬ LeafFirst cs ct h) (logRoots noFaults ct) (hash, b)

theorem Unshadowed.reachable {hash : Bytes} (h : Unshadowed cs ct hash) : Reachable cs ct hash := by
  obtain ⟨b, h⟩ := h
  exact ⟨b, h.mono _ fun _ _ => trivial⟩

/-- The walk meets what is not shadowed. -/
theorem met_markWalk_iff (hash : Bytes) : hash ∈ met (markWalk cs noFaults ct) ↔ Unshadowed cs ct hash :=
  met_walk_iff (treeKids cs noFaults ct.store) (treeKids_bounded cs noFaults ct) (logRoots noFaults ct)
    (logRoots_short noFaults ct) hash

/-- The loose copy is not younger than the grace period, or there is none. -/
def Old (grace now : Int) (hash : Bytes) : Prop :=
  ∀ f, ct.store.loose.lookup hash = some f → ¬ (gcCutoff grace now > 0 ∧ f.mtime ≥ gcCutoff grace now)

/-- The sweep takes the loose copy: the listing has it, and neither reason to spare it holds. -/
structure Swept (grace now : Int) (hash : Bytes) : Prop where
  listed : foreachLists noFaults hash = true
  shadowed : ¬ Unshadowed cs ct hash
  old : Old ct grace now hash

/-- The copy goes into the new pack: the packer walks over its address, and the mark has met the address
as it is spelled in lower case. -/
def GcPacks (hash : Bytes) : Prop := Packs ct.store hash ∧ Unshadowed cs ct (toHex (binOf hash))

/-- What a collection must find for a hash, which reads as `obj`, to stay so. -/
def GcCall.Keeps (grace now : Int) (hash : Bytes) (obj : Object) : GcCall → Prop
  | .gc => ct.store.packed hash = true ∨ ¬ Swept cs ct grace now hash
  | .gcPack policy codec =>
    (GcPacks cs ct hash → RepackKeeps cs ct.store policy codec hash obj) ∧
    (¬ GcPacks cs ct hash →
      ct.store.hasLoose hash = true ∧ ¬ Swept cs ct grace now hash ∨
        ct.store.packed hash = true ∧ ∀ other, ¬ GcPacks cs ct other)

/-- Where an address has a packed copy that reads and a loose one, they read as the same object. -/
def CopiesAgree (st : Store) : Prop :=
  ∀ hash obj, packCopy cs st hash = .ok obj → st.hasLoose hash = true → looseCopy cs st hash = .ok obj

/-- Every reachable object that reads in the depot reads as the same in `st'`. -/
def KeepsReachable (st' : Store) : Prop :=
  ∀ hash obj, Reachable cs ct hash → casOpenObject cs noFaults ct.store hash = .ok obj →
    casOpenObject cs noFaults st' hash = .ok obj

/-- A file under a name that is not in lower case, beside one under the name in lower case whose region is
not framed as its header says: the new pack may then read as anything. -/
def GcCall.OddTwin (hash : Bytes) : GcCall → Prop
  | .gc => False
  | .gcPack _ _ => Misframed ct.store hash ∧ toHex (binOf hash) ≠ hash

/-! ## Reading after the sweep -/

section
variable (reachable : HashSet) (hset : hashSetContains reachable = fun h => decide (h ∈ met (markWalk cs noFaults ct)))
  (grace now : Int) (fn : Nat → Bytes → Bool) (st : Store) (hash : Bytes) (hv : validHash hash = true)
  (hl : st.loose.lookup hash = ct.store.loose.lookup hash)
include hset hv hl

/-- The sweep spares a hash whose file is the one the depot had. -/
theorem sweepSpares_eq_false : sweepSpares noFaults reachable (gcCutoff grace now) st hash = false ↔
    ¬ Unshadowed cs ct hash ∧ Old ct grace now hash := by
  unfold sweepSpares casObjectMtime Old
  rw [hset, ← met_markWalk_iff, if_neg (by simp [hv]), hl]
  cases ct.store.loose.lookup hash with
  | none => simp
  | some f => simp [noFaults]

theorem sweep_keeps_file (hs : ¬ Swept cs ct grace now hash) :
    (sweep noFaults reachable (gcCutoff grace now) fn st).1.loose.lookup hash = ct.store.loose.lookup hash := by
  rcases (sweep_loses noFaults reachable (gcCutoff grace now) fn st).loose hash with h | ⟨-, hlist, hspares⟩
  · exact h.trans hl
  · obtain ⟨-, -, hlisted⟩ := (mem_casForeach _ _ _).mp hlist
    obtain ⟨hsh, hold⟩ := (sweepSpares_eq_false cs ct reachable hset grace now st hash hv hl).mp hspares
    exact absurd ⟨hlisted, hsh, hold⟩ hs

theorem sweep_takes_file (hgo : ∀ n h, fn n h = false) (hs : Swept cs ct grace now hash) :
    (sweep noFaults reachable (gcCutoff grace now) fn st).1.loose.lookup hash = none := by
  by_cases hfile : st.hasLoose hash = true
  · refine sweepFrom_gone noFaults reachable (gcCutoff grace now) fn hgo _ st _ (List.Subset.refl _) (st, 0)
      (LosesOnly.refl _ _) hash ((mem_casForeach _ _ _).mpr ⟨rfl, hfile, hs.listed⟩) hv rfl ?_
    exact (sweepSpares_eq_false cs ct reachable hset grace now st hash hv hl).mpr ⟨hs.shadowed, hs.old⟩
  · have hnone : st.loose.lookup hash = none := by
      unfold Store.hasLoose at hfile
      simpa using hfile
    rcases (sweep_loses noFaults reachable (gcCutoff grace now) fn st).loose hash with h | ⟨h, -⟩
    · exact h.trans hnone
    · exact h

end

section
variable (reachable : HashSet) (hset : hashSetContains reachable = fun h => decide (h ∈ met (markWalk cs noFaults ct)))
  (grace now : Int) (fn : Nat → Bytes → Bool) (st : Store) (hash : Bytes) (hv : validHash hash = true)

include hset hv

/-- An unpacked hash is read from the depot's file while the sweep leaves that alone. -/
theorem sweep_open_unpacked (hp : st.packed hash = false) (hl : st.loose.lookup hash = ct.store.loose.lookup hash)
    (hs : ¬ Swept cs ct grace now hash) :
    casOpenObject cs noFaults (sweep noFaults reachable (gcCutoff grace now) fn st).1 hash =
      looseCopy cs ct.store hash := by
  have hpack := (sweep_loses noFaults reachable (gcCutoff grace now) fn st).handle
  have hp' : (sweep noFaults reachable (gcCutoff grace now) fn st).1.packed hash = false := by
    unfold Store.packed at hp ⊢
    rw [hpack]
    exact hp
  rw [casOpenObject_of_looseCopy cs _ hash hv ((packCopy_enotfound_iff cs _ hash hv).mpr hp')]
  unfold looseCopy
  rw [sweep_keeps_file cs ct reachable hset grace now fn st hash hv hl hs]

/-- Reading it afterwards shows that it had a file, which was not swept. -/
theorem sweep_open_unpacked_ok (hp : st.packed hash = false)
    (hl : st.loose.lookup hash = ct.store.loose.lookup hash) (hgo : ∀ n h, fn n h = false) (obj : Object)
    (h : casOpenObject cs noFaults (sweep noFaults reachable (gcCutoff grace now) fn st).1 hash = .ok obj) :
    ct.store.hasLoose hash = true ∧ ¬ Swept cs ct grace now hash := by
  by_cases hs : Swept cs ct grace now hash
  · have hpack := (sweep_loses noFaults reachable (gcCutoff grace now) fn st).handle
    refine absurd h (casOpenObject_absent cs _ hash ?_ ?_ obj)
    · unfold Store.hasLoose
      rw [sweep_takes_file cs ct reachable hset grace now fn st hash hv hl hgo hs]
      rfl
    · unfold Store.packed at hp ⊢
      rw [hpack]
      exact hp
  · refine ⟨?_, hs⟩
    rw [sweep_open_unpacked cs ct reachable hset grace now fn st hash hv hp hl hs] at h
    by_contra hno
    rw [(looseCopy_enotfound_iff cs ct.store hash).mpr (by simpa using hno)] at h
    cases h

end

/-! ## Reading after the pack is rebuilt -/

/-- The hashes the packer keeps are those that go into the new pack. -/
theorem mem_kept_iff_gcPacks (reachable : HashSet)
    (hset : hashSetContains reachable = fun h => decide (h ∈ met (markWalk cs noFaults ct))) (hash : Bytes) :
    binOf hash ∈ keptHashes noFaults ct.store ct.store.pack (some (hashSetContains reachable)) ↔
      GcPacks cs ct hash := by
  rw [mem_keptHashes, mem_collectHashes_noFaults, hset]
  unfold GcPacks Packs Keep.accepts
  simp [met_markWalk_iff]

omit ct in
/-- What `cas_pack_reclaim` on the depot's own pack leaves: the handle is the pack that is there, and what
that does not have is loose as before. -/
theorem reclaim_own_pack (st : Store) (hsync : casPackOpen false (st.file packDat) = none → st.pack = none) :
    (casPackReclaim cs noFaults st packDat).1.pack = (casReloadPack noFaults st).pack ∧
      ∀ hash, validHash hash = true → (casPackReclaim cs noFaults st packDat).1.packed hash = false →
        (casPackReclaim cs noFaults st packDat).1.loose.lookup hash = st.loose.lookup hash := by
  rcases casPackReclaim_spec cs noFaults st packDat with ⟨hsame, hnone⟩ | ⟨pack, hopen, hfrom⟩
  · rw [hsame]
    refine ⟨?_, fun _ _ _ => rfl⟩
    rw [hsync hnone]
    exact hnone.symm
  · refine ⟨hfrom.handle, fun hash hv hp => ?_⟩
    rcases hfrom.loose hash with hl | ⟨-, hr⟩
    · exact hl
    · -- the pack does not have the hash, so it cannot stand in for it
      obtain ⟨obj, hlook, -⟩ := reclaimable_spec cs noFaults pack hash hr
      have hpack : (casPackReclaim cs noFaults st packDat).1.pack = some pack := hfrom.handle.trans hopen
      unfold Store.packed at hp
      rw [hpack, Option.any_some] at hp
      rw [casPackLookup_of_not_exists cs false pack hash hv hp] at hlook
      cases hlook

/-- Where the copies agree, a readable hash that has a file reads from it. -/
theorem CopiesAgree.looseCopy (hagree : CopiesAgree cs ct.store) (hash : Bytes) (obj : Object)
    (hopen : casOpenObject cs noFaults ct.store hash = .ok obj) (hfile : ct.store.hasLoose hash = true) :
    looseCopy cs ct.store hash = .ok obj := by
  have hv := casOpenObject_ok_valid cs ct.store hash noFaults obj hopen
  cases hc : packCopy cs ct.store hash with
  | ok other =>
    rw [casOpenObject_of_packCopy cs ct.store hash hv other hc] at hopen
    rw [← Except.ok.inj hopen]
    exact hagree hash other hc hfile
  | error rc =>
    rw [casOpenObject_copies cs ct.store hash hv, hc] at hopen
    cases rc <;> first | cases hopen | exact hopen

/-- A readable hash whose lower-case name has a file that is not framed as its header says has another name. -/
theorem oddTwin_of_misframed (hagree : CopiesAgree cs ct.store) (hash : Bytes) (obj : Object)
    (hopen : casOpenObject cs noFaults ct.store hash = .ok obj) (h : Misframed ct.store hash) :
    toHex (binOf hash) ≠ hash := by
  intro heq
  obtain ⟨f, hl, hbad⟩ := h
  rw [heq] at hl
  have hloose := hagree.looseCopy cs ct hash obj hopen (by unfold Store.hasLoose; rw [hl]; rfl)
  unfold Smolvfs.looseCopy at hloose
  rw [hl] at hloose
  have hsz : ¬ (f.data.length < CAS_PACK_BLOCK ∨ f.data.length > 2 ^ 30) := by
    intro hsz
    unfold looseRead at hloose
    simp only [if_pos hsz] at hloose
    cases hloose
  exact hbad (wellFramed_of_read cs _ _ obj ((looseRead_iff_form cs f.data obj hsz).mp hloose))

/-! ## The result -/

section
variable (hr : cs.RoundTrips) (grace now : Int) (fn : Nat → Bytes → Bool)
  (hsync : ct.store.pack = casPackOpen false (ct.store.file packDat)) (hagree : CopiesAgree cs ct.store)
  (hash : Bytes) (obj : Object) (hopen : casOpenObject cs noFaults ct.store hash = .ok obj)
include hopen

/-- A readable hash under `cas_tree_gc`. -/
theorem gc_read (hok : (GcCall.gc.run cs noFaults ct grace now fn).1 = .ok) :
    (GcCall.gc.Keeps cs ct grace now hash obj →
      casOpenObject cs noFaults (GcCall.gc.run cs noFaults ct grace now fn).2 hash = .ok obj) ∧
    ((∀ n h, fn n h = false) →
      casOpenObject cs noFaults (GcCall.gc.run cs noFaults ct grace now fn).2 hash = .ok obj →
        GcCall.gc.Keeps cs ct grace now hash obj) := by
  have hv := casOpenObject_ok_valid cs ct.store hash noFaults obj hopen
  unfold GcCall.run casTreeGc at hok ⊢
  cases hm : markRefs cs noFaults ct with
  | error rc =>
    rw [hm] at hok
    exact absurd hok (markRefs_error cs noFaults ct rc hm).1
  | ok reachable =>
    have hset := (markRefs_ok cs noFaults ct reachable hm).2
    show (_ ∨ _ → casOpenObject cs noFaults (sweep noFaults reachable (gcCutoff grace now) fn ct.store).1 hash = _) ∧
      (_ → casOpenObject cs noFaults (sweep noFaults reachable (gcCutoff grace now) fn ct.store).1 hash = _ → _ ∨ _)
    cases hp : ct.store.packed hash with
    | true =>
      rw [casOpenObject_of_same_pack cs ct.store hash hv _ (sweep_loses noFaults _ _ fn ct.store).handle hp]
      exact ⟨fun _ => hopen, fun _ _ => .inl rfl⟩
    | false =>
      constructor
      · rintro (h | hs)
        · cases h
        · rw [sweep_open_unpacked cs ct reachable hset grace now fn ct.store hash hv hp rfl hs]
          rw [casOpenObject_of_looseCopy cs ct.store hash hv ((packCopy_enotfound_iff cs ct.store hash hv).mpr hp)]
            at hopen
          exact hopen
      · intro hgo hread
        exact .inr (sweep_open_unpacked_ok cs ct reachable hset grace now fn ct.store hash hv hp rfl hgo obj hread).2

section
variable (policy : Policy) (codec : Int) (reachable : HashSet)
  (hset : hashSetContains reachable = fun h => decide (h ∈ met (markWalk cs noFaults ct)))
include hset hsync hagree

/-- When nothing goes into a new pack, the old one stays and the sweep decides. -/
theorem gcPack_read_old (hnil : keptHashes noFaults ct.store ct.store.pack (some (hashSetContains reachable)) = []) :
    let st := (sweep noFaults reachable (gcCutoff grace now) fn (casPackReclaim cs noFaults ct.store packDat).1).1
    ((GcCall.gcPack policy codec).Keeps cs ct grace now hash obj → casOpenObject cs noFaults st hash = .ok obj) ∧
    ((∀ n h, fn n h = false) → casOpenObject cs noFaults st hash = .ok obj →
      (GcCall.gcPack policy codec).Keeps cs ct grace now hash obj) := by
  intro st
  have hv := casOpenObject_ok_valid cs ct.store hash noFaults obj hopen
  have hnone : ∀ other, ¬ GcPacks cs ct other := by
    intro other hg
    rw [← mem_kept_iff_gcPacks cs ct reachable hset, hnil] at hg
    cases hg
  obtain ⟨hpack, hfiles⟩ := reclaim_own_pack cs ct.store fun h => hsync.trans h
  have hpack' : (casPackReclaim cs noFaults ct.store packDat).1.pack = ct.store.pack := hpack.trans hsync.symm
  have hkept := (sweep_loses noFaults reachable (gcCutoff grace now) fn
    (casPackReclaim cs noFaults ct.store packDat).1).handle
  cases hp : ct.store.packed hash with
  | true =>
    have hsame : casOpenObject cs noFaults st hash = .ok obj :=
      (casOpenObject_of_same_pack cs ct.store hash hv st (hkept.trans hpack') hp).trans hopen
    exact ⟨fun _ => hsame, fun _ _ => ⟨fun hg => absurd hg (hnone hash), fun _ => .inr ⟨hp, hnone⟩⟩⟩
  | false =>
    have hp' : (casPackReclaim cs noFaults ct.store packDat).1.packed hash = false := by
      unfold Store.packed at hp ⊢
      rw [hpack', hp]
    have hl := hfiles hash hv hp'
    constructor
    · rintro ⟨-, hk⟩
      rcases hk (hnone hash) with ⟨hfile, hs⟩ | ⟨hpd, -⟩
      · exact (sweep_open_unpacked cs ct reachable hset grace now fn _ hash hv hp' hl hs).trans
          (hagree.looseCopy cs ct hash obj hopen hfile)
      · rw [hp] at hpd
        cases hpd
    · intro hgo hread
      have := sweep_open_unpacked_ok cs ct reachable hset grace now fn _ hash hv hp' hl hgo obj hread
      exact ⟨fun hg => absurd hg (hnone hash), fun _ => .inl this⟩

include hr

omit hsync in
/-- With a new pack, what went into it is read from there, and the rest from the files that are left. -/
theorem gcPack_read_new (es : List Emitted) (hne : es ≠ [])
    (hbins : es.map Emitted.bin = keptHashes noFaults ct.store ct.store.pack (some (hashSetContains reachable)))
    (hes : ∀ e ∈ es, packEntry cs noFaults ct.store ct.store.pack policy codec e.bin = .ok e)
    (hpok : PackedOk es) (hs : BinsSorted es) :
    let st := (sweep noFaults reachable (gcCutoff grace now) fn
      (casPackReclaim cs noFaults (ct.store.setFile packDat (packImage es)) packDat).1).1
    ((GcCall.gcPack policy codec).Keeps cs ct grace now hash obj → casOpenObject cs noFaults st hash = .ok obj) ∧
    ((∀ n h, fn n h = false) → casOpenObject cs noFaults st hash = .ok obj →
      (GcCall.gcPack policy codec).Keeps cs ct grace now hash obj ∨ (GcCall.gcPack policy codec).OddTwin ct hash) := by
  intro st
  have hv := casOpenObject_ok_valid cs ct.store hash noFaults obj hopen
  have hopens : casPackOpen false ((ct.store.setFile packDat (packImage es)).file packDat) = some (packOf es hpok) := by
    rw [setFile_self]
    exact casPackOpen_image es hpok
  obtain ⟨hpack, hfiles⟩ := reclaim_own_pack cs (ct.store.setFile packDat (packImage es))
    (fun h => by rw [hopens] at h; cases h)
  have hkept := (sweep_loses noFaults reachable (gcCutoff grace now) fn
    (casPackReclaim cs noFaults (ct.store.setFile packDat (packImage es)) packDat).1).handle
  -- a hash is in the new pack exactly when it is one that goes in
  have hiff : (repacked ct.store es).packed hash = true ↔ GcPacks cs ct hash := by
    rw [repacked_packed_iff ct.store es hpok hs hash hv, hbins, mem_kept_iff_gcPacks cs ct reachable hset]
  by_cases hg : GcPacks cs ct hash
  · have hin : binOf hash ∈ es.map Emitted.bin := by
      rw [hbins, mem_kept_iff_gcPacks cs ct reachable hset]
      exact hg
    have hsame : casOpenObject cs noFaults st hash = casOpenObject cs noFaults (repacked ct.store es) hash :=
      casOpenObject_of_same_pack cs _ hash hv st (hkept.trans hpack) (hiff.mpr hg)
    obtain ⟨h1, h2⟩ := repacked_open cs hr ct.store policy codec es hpok hs hes hash obj hopen hin
    rw [hsame]
    constructor
    · rintro ⟨hk, -⟩
      exact h1 (hk hg)
    · intro _ hread
      rcases h2 hread with hk | hbad
      · exact .inl ⟨fun _ => hk, fun hno => absurd hg hno⟩
      · exact .inr ⟨hbad, oddTwin_of_misframed cs ct hagree hash obj hopen hbad⟩
  · have hp : (casPackReclaim cs noFaults (ct.store.setFile packDat (packImage es)) packDat).1.packed hash = false := by
      have : (repacked ct.store es).packed hash = false := by simpa using fun h => hg (hiff.mp h)
      unfold Store.packed at this ⊢
      rw [hpack]
      exact this
    have hl := hfiles hash hv hp
    constructor
    · rintro ⟨-, hk⟩
      rcases hk hg with ⟨hfile, hsw⟩ | ⟨-, hnone⟩
      · exact (sweep_open_unpacked cs ct reachable hset grace now fn _ hash hv hp hl hsw).trans
          (hagree.looseCopy cs ct hash obj hopen hfile)
      · -- the new pack has something in it
        obtain ⟨e, he⟩ := List.exists_mem_of_ne_nil es hne
        have hbin : binOf (toHex e.bin) ∈ es.map Emitted.bin := by
          rw [binOf_toHex]
          exact List.mem_map_of_mem he
        rw [hbins, mem_kept_iff_gcPacks cs ct reachable hset] at hbin
        exact absurd hbin (hnone _)
    · intro hgo hread
      have := sweep_open_unpacked_ok cs ct reachable hset grace now fn _ hash hv hp hl hgo obj hread
      exact .inl ⟨fun h => absurd h hg, fun _ => .inl this⟩

end

include hsync hagree hr

/-- A readable hash under `cas_tree_gc_pack`. -/
theorem gcPack_read (policy : Policy) (codec : Int)
    (hok : ((GcCall.gcPack policy codec).run cs noFaults ct grace now fn).1 = .ok) :
    ((GcCall.gcPack policy codec).Keeps cs ct grace now hash obj →
      casOpenObject cs noFaults ((GcCall.gcPack policy codec).run cs noFaults ct grace now fn).2 hash = .ok obj) ∧
    ((∀ n h, fn n h = false) →
      casOpenObject cs noFaults ((GcCall.gcPack policy codec).run cs noFaults ct grace now fn).2 hash = .ok obj →
        (GcCall.gcPack policy codec).Keeps cs ct grace now hash obj ∨
          (GcCall.gcPack policy codec).OddTwin ct hash) := by
  have hv := casOpenObject_ok_valid cs ct.store hash noFaults obj hopen
  have hloose := hagree.looseCopy cs ct hash obj hopen
  unfold GcCall.run casTreeGcPack at hok ⊢
  cases hm : markRefs cs noFaults ct with
  | error rc =>
    rw [hm] at hok
    exact absurd hok (markRefs_error cs noFaults ct rc hm).1
  | ok reachable =>
    have hset := (markRefs_ok cs noFaults ct reachable hm).2
    rw [hm] at hok
    simp only [] at hok ⊢
    cases hc : casPackCreateFiltered cs noFaults ct.store packDat policy codec (hashSetContains reachable) with
    | mk rc st =>
      rw [hc] at hok
      obtain rfl : rc = .ok := by
        cases rc <;> first | rfl | cases hok
      have hcases := packCreate_ok cs noFaults ct.store st packDat policy codec _ hc
      simp only [show casPackOpen (noFaults .openPack) (ct.store.file packDat) = ct.store.pack from hsync.symm]
        at hcases
      simp only []
      rcases hcases with ⟨hnil, rfl⟩ | ⟨es, hne, hbins, hes, hpok, hs, rfl⟩
      · obtain ⟨h1, h2⟩ := gcPack_read_old cs ct grace now fn hsync hagree hash obj hopen policy codec reachable
          hset hnil
        exact ⟨h1, fun hgo hread => .inl (h2 hgo hread)⟩
      · exact gcPack_read_new cs ct hr grace now fn hagree hash obj hopen policy codec reachable hset es hne
          hbins hes hpok hs

end

/-- **A collection that ends well keeps every reachable object exactly when each is one of those it keeps**:
packed or not swept, and under `cas_tree_gc_pack` in the new pack as it was read, or left where it is.  The
sweep takes a reachable object only when every way to it goes into a tree first mentioned as a leaf.  The
converse is for a sweep that its callback does not stop. -/
theorem gc_keeps_reachable_iff (hr : cs.RoundTrips) (call : GcCall) (grace now : Int) (fn : Nat → Bytes → Bool)
    (hsync : ct.store.pack = casPackOpen false (ct.store.file packDat)) (hagree : CopiesAgree cs ct.store)
    (hok : (call.run cs noFaults ct grace now fn).1 = .ok) :
    ((∀ hash obj, Reachable cs ct hash → casOpenObject cs noFaults ct.store hash = .ok obj →
        call.Keeps cs ct grace now hash obj) →
      KeepsReachable cs ct (call.run cs noFaults ct grace now fn).2) ∧
    ((∀ n hash, fn n hash = false) → KeepsReachable cs ct (call.run cs noFaults ct grace now fn).2 →
      ∀ hash obj, Reachable cs ct hash → casOpenObject cs noFaults ct.store hash = .ok obj →
        call.Keeps cs ct grace now hash obj ∨ call.OddTwin ct hash) := by
  cases call with
  | gc =>
    constructor
    · intro hk hash obj hreach hopen
      exact (gc_read cs ct grace now fn hash obj hopen hok).1 (hk hash obj hreach hopen)
    · intro hgo hkeeps hash obj hreach hopen
      exact .inl ((gc_read cs ct grace now fn hash obj hopen hok).2 hgo (hkeeps hash obj hreach hopen))
  | gcPack policy codec =>
    constructor
    · intro hk hash obj hreach hopen
      exact (gcPack_read cs ct hr grace now fn hsync hagree hash obj hopen policy codec hok).1
        (hk hash obj hreach hopen)
    · intro hgo hkeeps hash obj hreach hopen
      exact (gcPack_read cs ct hr grace now fn hsync hagree hash obj hopen policy codec hok).2 hgo
        (hkeeps hash obj hreach hopen)

end

/-! ## A directory first seen as a file's content -/

def twoHash : Bytes := List.replicate 64 50

def childEntry (mode : BitVec 32) (name : Char) (hash : Bytes) : Entry := ⟨mode, 0, 0, 0, 0, hash, lit [name]⟩

/-- The root names one tree twice, as the file `a` and as the directory `b`; the tree holds a blob. -/
def shadowDepot : CasTree where
  store :=
    ⟨((AList.singleton twoHash ⟨rawFile (tBlob, [1]), 0⟩).insert oneHash
        ⟨rawFile (tTree, treeSerialize [childEntry 0o100644#32 'c' twoHash]), 0⟩).insert zeroHash
        ⟨rawFile (tTree, treeSerialize [childEntry 0o100644#32 'a' oneHash, childEntry 0o040755#32 'b' oneHash]), 0⟩,
      fun _ => none, none⟩
  refs := oneLog (logLine zeroHash 0 0 [])

theorem shadowDepot_ok : (GcCall.gc.run [] noFaults shadowDepot 0 0 fun _ _ => false).1 = .ok := by decide +kernel

theorem shadowDepot_agree : CopiesAgree [] shadowDepot.store := by
  intro hash obj h
  cases h

/-- The depot meets the hypotheses of the result. -/
theorem gc_keeps_reachable_shadowDepot :
    (GcCall.gc.run [] noFaults shadowDepot 0 0 fun _ _ => false).1 = .ok ∧
      ((∀ hash obj, Reachable [] shadowDepot hash → casOpenObject [] noFaults shadowDepot.store hash = .ok obj →
          GcCall.gc.Keeps [] shadowDepot 0 0 hash obj) →
        KeepsReachable [] shadowDepot (GcCall.gc.run [] noFaults shadowDepot 0 0 fun _ _ => false).2) ∧
      (KeepsReachable [] shadowDepot (GcCall.gc.run [] noFaults shadowDepot 0 0 fun _ _ => false).2 →
        ∀ hash obj, Reachable [] shadowDepot hash → casOpenObject [] noFaults shadowDepot.store hash = .ok obj →
          GcCall.gc.Keeps [] shadowDepot 0 0 hash obj ∨ GcCall.gc.OddTwin shadowDepot hash) := by
  have hiff := gc_keeps_reachable_iff [] shadowDepot roundTrips_nil .gc 0 0 (fun _ _ => false) rfl shadowDepot_agree
    shadowDepot_ok
  exact ⟨shadowDepot_ok, hiff.1, hiff.2 fun _ _ => rfl⟩

/-- The blob is reachable through the directory `b`. -/
theorem shadowDepot_reachable : Reachable [] shadowDepot twoHash := by
  have hroot : zeroHash ∈ logRoots noFaults shadowDepot := by decide +kernel
  have hdir : (oneHash, true) ∈ treeKids [] noFaults shadowDepot.store zeroHash := by decide +kernel
  have hfile : (twoHash, false) ∈ treeKids [] noFaults shadowDepot.store oneHash := by decide +kernel
  exact ⟨false, .kid (.kid (.root hroot) trivial hdir) trivial hfile⟩

/-- The mark meets the tree as `a` and does not go into it as `b`; the sweep then takes the blob. -/
theorem gc_loses_shadowed :
    (GcCall.gc.run [] noFaults shadowDepot 0 0 fun _ _ => false).1 = .ok ∧
      ¬ KeepsReachable [] shadowDepot (GcCall.gc.run [] noFaults shadowDepot 0 0 fun _ _ => false).2 := by
  refine ⟨shadowDepot_ok, fun hkeeps => ?_⟩
  have hbefore : casOpenObject [] noFaults shadowDepot.store twoHash = .ok (tBlob, [1]) := by decide +kernel
  have hafter : casOpenObject [] noFaults (GcCall.gc.run [] noFaults shadowDepot 0 0 fun _ _ => false).2 twoHash =
      .error .enotfound := by decide +kernel
  have := hkeeps twoHash _ shadowDepot_reachable hbefore
  rw [hafter] at this
  cases this

end Smolvfs
