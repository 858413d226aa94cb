import Smolvfs.GcSnapshots
import Smolvfs.RefLog
import Smolvfs.SnapCommit

/-!
# The history of a filesystem

Runs that edit a filesystem, commit it under refs, check refs out, put other objects, prune
logs and collect.

What a run is for is a `History`: of each ref the filesystems that were committed, less
those a prune has dropped.  `history_kept`: after any run the log of a ref reads as its
history, every version of it is restored as the filesystem it was, and a checkout gives
the last one.
-/

namespace Smolvfs

open Octets Keyed Names Numeral PathTree Picking Runs Walk

/-! ## Runs -/

/-- A filesystem that was committed, and what its commit says of it. -/
structure Version where
  fs : Vfs
  comment : CStr
  timeS : Int
  timeNs : Int

def Version.commit (v : Version) (root : Bytes) : Commit := ⟨root, v.comment, v.timeS, v.timeNs⟩

/-- What each ref is to give back, the newest last. -/
abbrev History := Bytes → List Version

/-- A filesystem in memory and a depot. -/
structure SnapWorld where
  fs : Vfs
  ct : CasTree

inductive SnapCall
  /-- a new filesystem in place of the one there was -/
  | new (quota : Nat) (umask : BitVec 32)
  | edit (cred : VfsCred) (now : Int) (c : VfsCall)
  | commit (flt : Faults) (noMem noRoom : Nat → Bool) (useHtree : Bool) (now : Int) (ref : Bytes) (comment : CStr)
      (timeS timeNs : Int)
  | checkout (flt : Faults) (cred : VfsCred) (now : Int) (ref : Bytes)
  | checkoutAt (flt : Faults) (cred : VfsCred) (now : Int) (base ref : Bytes)
  | put (flt : Faults) (type : CStr) (data : Bytes) (now : Int)
  | prune (flt : PruneFaults) (basedir ref : Bytes) (keepCount keepSince : Int)
  | gc (grace now : Int) (fn : Nat → Bytes → Bool)

section
variable (cs : Codecs) (cfg : CompressConfig) (fuel : Nat)

/-- What a call leaves. -/
def SnapCall.run (w : SnapWorld) : SnapCall → SnapWorld
  | .new quota umask => { w with fs := vfsNew quota umask }
  | .edit cred now c => { w with fs := (c.run noVfsFaults cred now w.fs).2 }
  | .commit flt noMem noRoom useHtree now ref comment timeS timeNs =>
    { w with ct := (vfsSnapCommit cs cfg flt w.fs adminCred noMem noRoom useHtree now fuel w.ct ref comment.bytes timeS
      timeNs).2 }
  | .checkout flt cred now ref => { w with fs := (vfsSnapCheckout cs flt w.ct noVfsFaults cred now fuel w.fs ref).2 }
  | .checkoutAt flt cred now base ref =>
    { w with fs := (vfsSnapCheckoutAt cs flt w.ct noVfsFaults cred now fuel w.fs base ref).2 }
  | .put flt type data now =>
    match casPutObjectZ cs cfg flt w.ct.store type CAS_CODEC_NONE data now with
    | .error _ => w
    | .ok (st, _) => { w with ct := ⟨st, w.ct.refs⟩ }
  | .prune flt basedir ref keepCount keepSince =>
    { w with ct := ⟨w.ct.store, (casTreeLogTruncate flt basedir w.ct.refs ref keepCount keepSince).refs⟩ }
  | .gc grace now fn => { w with ct := ⟨(casTreeGc cs noFaults w.ct grace now fn).2.1, w.ct.refs⟩ }

/-- The time of a version as its entry has it. -/
def Version.time (v : Version) : BitVec 64 := BitVec.ofInt 64 v.timeS

/-- What a call is to do to the history: a commit that succeeds adds the filesystem, and a prune that succeeds
takes versions away. -/
def History.after (h : History) (w : SnapWorld) : SnapCall → History
  | .commit flt noMem noRoom useHtree now ref comment timeS timeNs =>
    if (vfsSnapCommit cs cfg flt w.fs adminCred noMem noRoom useHtree now fuel w.ct ref comment.bytes timeS timeNs).1 =
      some .ok then Function.update h ref (h ref ++ [⟨w.fs, comment, timeS, timeNs⟩]) else h
  | .prune flt basedir ref keepCount keepSince =>
    if (casTreeLogTruncate flt basedir w.ct.refs ref keepCount keepSince).status = .ok then
      Function.update h ref (prunedBy Version.time keepCount keepSince (h ref)) else h
  | _ => h

/-- One call, on the world and on the history. -/
def SnapStep (s : SnapWorld × History) (c : SnapCall) (s' : SnapWorld × History) : Prop :=
  s'.1 = c.run cs cfg fuel s.1 ∧ s'.2 = s.2.after cs cfg fuel s.1 c

theorem snapStep_run (s : SnapWorld × History) (c : SnapCall) :
    SnapStep cs cfg fuel s c (c.run cs cfg fuel s.1, s.2.after cs cfg fuel s.1 c) := ⟨rfl, rfl⟩

/-- The calls that are allowed: a rename takes nothing to a path that is too long; what a commit puts is among the
objects, and its line fits the reader's buffer; other objects have other addresses; no read of the log fails. -/
def SnapAllowed (objs : List SnapObject) (s : SnapWorld × History) : SnapCall → Prop
  | .edit cred _ c => StaysShort s.1.fs cred c
  | .commit _ _ _ _ _ _ comment timeS timeNs => (∀ o ∈ snapshotObjects s.1.fs fuel [47], o ∈ objs) ∧
      ∀ root, validHash root = true → ShortCommit ⟨root, comment, timeS, timeNs⟩
  | .put _ type data _ => ∀ o ∈ objs, o.address ≠ toHex (objBin (type, data))
  | .prune flt _ _ _ _ => ∀ n, flt.readLine n = false
  | _ => True

/-- A run from an empty filesystem, with no refs. -/
def SnapRun (objs : List SnapObject) (quota : Nat) (umask : BitVec 32) (st : Store) (w : SnapWorld) (h : History) :
    Prop :=
  Run (SnapStep cs cfg fuel) (SnapAllowed fuel objs) (⟨vfsNew quota umask, ⟨st, none⟩⟩, fun _ => []) (w, h)

end

/-! ## What holds of every state -/

/-- An entry of a log and the version it is of. -/
structure VersionAt (cs : Codecs) (fuel : Nat) (st : Store) (e : LogEntry) (v : Version) : Prop where
  reported : e = (v.commit e.hash).reported
  committable : Committable v.fs
  stands : StandsFor cs st v.fs fuel [] e.hash

structure HistoryKept (cs : Codecs) (fuel : Nat) (objs : List SnapObject) (w : SnapWorld) (h : History) : Prop where
  committable : Committable w.fs
  noneOther : NoneOther cs objs w.ct.store
  kept : ∀ ref, LogKept (VersionAt cs fuel w.ct.store) w.ct.refs ref (h ref)

section
variable {cs : Codecs} {fuel : Nat}

theorem VersionAt.store {st st' : Store} {e : LogEntry} {v : Version} (hv : VersionAt cs fuel st e v)
    (hs : StandsFor cs st v.fs fuel [] e.hash → StandsFor cs st' v.fs fuel [] e.hash) : VersionAt cs fuel st' e v where
  reported := hv.reported
  committable := hv.committable
  stands := hs hv.stands

theorem VersionAt.grow {st st' : Store} {e : LogEntry} {v : Version} (hv : VersionAt cs fuel st e v)
    (hg : Grows cs st st') : VersionAt cs fuel st' e v := hv.store fun hs => hs.grow hg

theorem VersionAt.time {st : Store} {e : LogEntry} {v : Version} (hv : VersionAt cs fuel st e v) : e.timeS = v.time := by
  rw [hv.reported]
  rfl

/-! ### Collections -/

section
variable {ct : CasTree} {h : History} (hkept : ∀ ref, LogKept (VersionAt cs fuel ct.store) ct.refs ref (h ref))

include hkept

/-- What the logs name is complete. -/
theorem logRoots_complete : ∀ r ∈ logRoots noFaults ct, DirComplete cs ct.store r := by
  intro r hr
  obtain ⟨ref, -, hr⟩ := List.mem_flatMap.mp hr
  obtain ⟨e, he, rfl⟩ := List.mem_map.mp hr
  obtain ⟨i, hi, rfl⟩ := List.mem_iff_getElem.mp (mem_logFile he)
  have hlen := (hkept ref).entries.length_eq
  exact (List.Forall₂.get (hkept ref).entries hi (by omega)).stands.complete

/-- **A collection keeps every history.** -/
theorem logKept_collected (grace now : Int) (fn : Nat → Bytes → Bool) (ref : Bytes) :
    LogKept (VersionAt cs fuel (casTreeGc cs noFaults ct grace now fn).2.1) ct.refs ref (h ref) where
  sound := (hkept ref).sound
  entries := by
    have hall := (hkept ref).entries
    refine List.forall₂_iff_get.mpr ⟨hall.length_eq, fun i hi hi' => ?_⟩
    refine (hall.get hi hi').store fun hs => hs.collected (logRoots_complete hkept) grace now fn ?_
    exact .root ((hkept ref).roots (List.get_mem _ _) ct.store)
  root := (hkept ref).root

end

/-! ### One call, and a run -/

section
variable {cfg : CompressConfig} {objs : List SnapObject}
  (hinj : ∀ o ∈ objs, ∀ o' ∈ objs, o.address = o'.address → o = o') (hfits : ∀ o ∈ objs, ∀ b, o.Fits b)

include hinj hfits

theorem historyKept_commit {w : SnapWorld} {h : History} (hk : HistoryKept cs fuel objs w h) (flt : Faults)
    (noMem noRoom : Nat → Bool) (useHtree : Bool) (now : Int) (ref : Bytes) (comment : CStr) (timeS timeNs : Int)
    (hobjs : ∀ o ∈ snapshotObjects w.fs fuel [47], o ∈ objs)
    (hshort : ∀ root, validHash root = true → ShortCommit ⟨root, comment, timeS, timeNs⟩) :
    HistoryKept cs fuel objs
      ((SnapCall.commit flt noMem noRoom useHtree now ref comment timeS timeNs).run cs cfg fuel w)
      (h.after cs cfg fuel w (.commit flt noMem noRoom useHtree now ref comment timeS timeNs)) := by
  have hroot : DirAt isDirNode (treeOf w.fs.nodes) [] := .inl rfl
  have hfit : ∀ o ∈ objs, o.Fits useHtree := fun o ho => hfits o ho useHtree
  obtain ⟨hg, hno⟩ : LeavesMore cs objs w.ct.store
      (vfsSnapStore cs cfg flt w.fs adminCred noMem noRoom useHtree now fuel w.ct.store).2 :=
    snapDir_left hk.committable.shaped hk.committable.valid hinj hfit fuel [] hroot (by decide) hobjs hk.noneOther
  have hne := snapDir_ne_ok cs cfg flt w.fs adminCred noMem noRoom .never CAS_CODEC_NONE useHtree now fuel [47]
    w.ct.store
  show HistoryKept cs fuel objs ⟨w.fs, (vfsSnapCommit cs cfg flt w.fs adminCred noMem noRoom useHtree now fuel w.ct ref
    comment.bytes timeS timeNs).2⟩ (if _ then _ else h)
  by_cases hok : (vfsSnapCommit cs cfg flt w.fs adminCred noMem noRoom useHtree now fuel w.ct ref comment.bytes timeS
    timeNs).1 = some .ok
  · obtain ⟨hash, refs, hstore, hcommit, hleaves⟩ := commitSnapshot_ok hne hok
    rw [if_pos hok, show (vfsSnapCommit _ _ _ _ _ _ _ _ _ _ _ _ _ _ _).2 = _ from hleaves]
    obtain ⟨-, -, -, hstands⟩ := snapDir_stored hk.committable.shaped hk.committable.valid hinj hfit fuel [] hroot
      (by decide) hobjs hk.noneOther (Prod.ext hstore rfl)
    refine ⟨hk.committable, hno, fun other => ?_⟩
    have hgrown := (hk.kept other).imp fun e v hv => hv.grow hg
    by_cases heq : other = ref
    · subst heq
      rw [Function.update_self]
      have hvalid := (casTreeRefCommit_files _ _ _ _ _ _ _ hcommit).2.1
      exact hgrown.commit (c := ⟨hash, comment, timeS, timeNs⟩) (hshort hash hvalid) ⟨rfl, hk.committable, hstands⟩
        hcommit
    · rw [Function.update_of_ne heq]
      exact hgrown.commit_other hcommit heq
  · rw [if_neg hok, show (vfsSnapCommit _ _ _ _ _ _ _ _ _ _ _ _ _ _ _).2 = _ from commitSnapshot_failed hok]
    exact ⟨hk.committable, hno, fun other => (hk.kept other).imp fun e v hv => hv.grow hg⟩

/-- **What one call preserves.** -/
theorem historyKept_step {s s' : SnapWorld × History} {c : SnapCall} (hk : HistoryKept cs fuel objs s.1 s.2)
    (hstep : SnapStep cs cfg fuel s c s') (hc : SnapAllowed fuel objs s c) : HistoryKept cs fuel objs s'.1 s'.2 := by
  obtain ⟨w, h⟩ := s
  obtain ⟨hw, hh⟩ := hstep
  rw [hw, hh]
  cases c with
  | new quota umask => exact ⟨committable_new quota umask, hk.noneOther, hk.kept⟩
  | edit cred now c => exact ⟨hk.committable.edit cred now c hc, hk.noneOther, hk.kept⟩
  | commit flt noMem noRoom useHtree now ref comment timeS timeNs =>
    exact historyKept_commit hinj hfits hk flt noMem noRoom useHtree now ref comment timeS timeNs hc.1 hc.2
  | checkout flt cred now ref => exact ⟨hk.committable.checkout cs flt w.ct cred now fuel ref, hk.noneOther, hk.kept⟩
  | checkoutAt flt cred now base ref =>
    exact ⟨hk.committable.checkoutAt cs flt w.ct cred now fuel base ref, hk.noneOther, hk.kept⟩
  | put flt type data now =>
    unfold SnapCall.run
    simp only []
    split
    · exact hk
    · next st hash hput =>
      obtain ⟨haddr, hat⟩ := casPutObjectZ_putAt hput
      refine ⟨hk.committable, fun o ho hstored => ?_, fun ref => (hk.kept ref).imp fun e v hv => hv.grow hat.grows⟩
      have hne : o.address ≠ hash := haddr ▸ hc o ho
      exact (hk.noneOther o ho fun hf => hstored ((hat.fresh hne).mpr hf)).grow hat.grows
  | prune flt basedir ref keepCount keepSince =>
    refine ⟨hk.committable, hk.noneOther, fun other => ?_⟩
    show LogKept _ (casTreeLogTruncate flt basedir w.ct.refs ref keepCount keepSince).refs other
      ((if _ then _ else h) other)
    by_cases heq : other = ref
    · subst heq
      split
      · next hok =>
        rw [Function.update_self]
        exact (hk.kept other).prune Version.time (fun e v hv => hv.time) hc hok
      · next hno => exact (hk.kept other).prune_kept fun _ => hno
    · split
      · rw [Function.update_of_ne heq]
        exact (hk.kept other).prune_kept fun h => absurd h heq
      · exact (hk.kept other).prune_kept fun h => absurd h heq
  | gc grace now fn =>
    exact ⟨hk.committable, hk.noneOther.collected grace now fn, logKept_collected hk.kept grace now fn⟩

theorem historyKept_run {quota : Nat} {umask : BitVec 32} {st : Store} (hst : NoneOther cs objs st) {w : SnapWorld}
    {h : History} (hrun : SnapRun cs cfg fuel objs quota umask st w h) : HistoryKept cs fuel objs w h :=
  hrun.invariant (fun s => HistoryKept cs fuel objs s.1 s.2)
    ⟨committable_new quota umask, hst, fun ref => logKept_new ref⟩
    fun _ _ _ hk hstep hc => historyKept_step hinj hfits hk hstep hc

end

/-! ## What a run gives back -/

/-- What is restored from a root is a filesystem. -/
def RestoredAs (cs : Codecs) (fuel : Nat) (st : Store) (root : Bytes) (fs : Vfs) : Prop :=
  ∀ (cred : VfsCred) (later : Int) (umask : BitVec 32), ∃ fs',
    vfsSnapRestore cs noFaults st noVfsFaults cred later fuel (vfsNew 0 umask) root = (some .ok, fs') ∧
      vfsTriples fs' = vfsTriples fs

theorem VersionAt.restored {st : Store} {e : LogEntry} {v : Version} (h : VersionAt cs fuel st e v) :
    RestoredAs cs fuel st e.hash v.fs :=
  fun cred later umask => h.stands.restored h.committable.shaped h.committable.valid cred later umask

end

def oneFileObjects : List SnapObject := snapshotObjects oneFileVfs 1 [47]

/-- `/a` is written and committed under `m`. -/
theorem history_oneFile : ∃ w h, SnapRun [] casCompressionDefault 1 oneFileObjects 0 0#32 Store.empty w h ∧
    h [109] = [⟨oneFileVfs, lit [], 1, 0⟩] := by
  have hstored : ((vfsSnapStore [] casCompressionDefault noFaults oneFileVfs adminCred (fun _ => false) (fun _ => false)
      false 0 1 Store.empty).1.bind Except.toOption).isSome = true := by
    decide +kernel
  obtain ⟨hash, st', hstore⟩ := snapped_ok hstored
  have hready := snapshotable_oneFile
  obtain ⟨haddr, -, -, -⟩ := snapDir_stored hready.shaped hready.valid hready.distinct hready.fits 1 [] (.inl rfl)
    (by decide) (fun _ ho => ho) hready.noneOther hstore
  have hv : validHash hash = true := haddr ▸ (lowerHash_address _).valid
  have hok : (vfsSnapCommit [] casCompressionDefault noFaults oneFileVfs adminCred (fun _ => false) (fun _ => false)
      false 0 1 ⟨Store.empty, none⟩ [109] (lit []).bytes 1 0).1 = some .ok := by
    unfold vfsSnapCommit
    rw [hstore]
    unfold commitSnapshot casTreeRefCommit
    simp only []
    rw [if_neg (by rw [hv]; decide)]
  have hshort : ∀ root, validHash root = true → ShortCommit ⟨root, lit [], 1, 0⟩ := by
    intro root hroot
    have h10 : (10 : UInt8) ∉ (lit []).bytes := by decide
    have hs : (-2 ^ 63 : Int) ≤ 1 ∧ (1 : Int) < 2 ^ 63 := by decide
    have hns : (-2 ^ 31 : Int) ≤ 0 ∧ (0 : Int) < 2 ^ 31 := by decide
    refine ⟨h10, ?_, hs, hns⟩
    show (root ++ (32 :: (printInt 1 ++ (32 :: (printInt 0 ++ (32 :: ((lit []).bytes ++ [10]))))))).length < LOG_LINE
    rw [List.length_append, ((validHash_iff root).mp hroot).1]
    decide
  have hedit : SnapRun [] casCompressionDefault 1 oneFileObjects 0 0#32 Store.empty ⟨oneFileVfs, ⟨Store.empty, none⟩⟩
      fun _ => [] :=
    (Run.refl _).tail (snapStep_run _ _ _ _ (.edit adminCred 0 (.write (lit ['/', 'a']).bytes [7] false)))
      fun _ _ heq => nomatch heq
  refine ⟨_, _, hedit.tail (snapStep_run _ _ _ _ (.commit noFaults (fun _ => false) (fun _ => false) false 0 [109]
    (lit []) 1 0)) ⟨fun _ ho => ho, hshort⟩, ?_⟩
  unfold History.after
  simp only []
  rw [if_pos hok, Function.update_self]
  rfl

end Smolvfs
