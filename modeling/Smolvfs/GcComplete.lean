import Smolvfs.GcKeep
import Smolvfs.Puts
import Smolvfs.VfsRestore

/-!
# Collecting where trees are complete

A directory is complete when it loads, its subdirectories are complete and the contents of
its files are there (`DirComplete`).  Where all that logs name is complete, the mark comes
to its end and takes no directory for a file's contents, so that a collection ends well
(`complete_gc_ok`) and everything reachable reads as before (`complete_gc_reads`).
-/

namespace Smolvfs

open Octets Walk

section
variable {cs : Codecs}

section
variable {st st' : Store} {hash : Bytes} (hkept : ∀ obj, casOpenObject cs noFaults st hash = .ok obj →
  casOpenObject cs noFaults st' hash = .ok obj)

include hkept

theorem casOpen_kept {data : Bytes} (h : casOpen cs noFaults st hash = .ok data) :
    casOpen cs noFaults st' hash = .ok data := by
  unfold casOpen at h ⊢
  split at h
  · cases h
  · next obj hopen =>
    rw [hkept _ hopen]
    exact h

theorem casTreeLoad_kept {dir : Dir} (h : casTreeLoad cs noFaults st hash = .ok dir) :
    casTreeLoad cs noFaults st' hash = .ok dir := by
  unfold casTreeLoad at h ⊢
  split at h
  · cases h
  · next obj hopen =>
    rw [hkept _ hopen]
    exact h

end

/-- Contents are no directory. -/
theorem casTreeLoad_blob {st : Store} {hash data : Bytes} (h : casOpen cs noFaults st hash = .ok data) :
    casTreeLoad cs noFaults st hash = .error .etype := by
  unfold casOpen at h
  unfold casTreeLoad
  cases hopen : casOpenObject cs noFaults st hash with
  | error rc =>
    rw [hopen] at h
    cases h
  | ok obj =>
    obtain ⟨type, bytes⟩ := obj
    rw [hopen] at h
    dsimp only at h ⊢
    split at h
    · next htype =>
      rw [htype, if_neg (by decide), if_neg (by decide)]
    · cases h

/-- A directory that is all there. -/
inductive DirComplete (cs : Codecs) (st : Store) : Bytes → Prop
  | mk (hash : Bytes) (dir : Dir) (hload : casTreeLoad cs noFaults st hash = .ok dir)
      (dirs : ∀ e ∈ dir, e.isDir = true → DirComplete cs st e.hash)
      (files : ∀ e ∈ dir, e.isDir = false → ∃ data, casOpen cs noFaults st e.hash = .ok data) : DirComplete cs st hash

/-- What a complete directory mentions: a directory that is complete, or contents that are there. -/
def Complete (cs : Codecs) (st : Store) (k : Bytes × Bool) : Prop :=
  if k.2 then DirComplete cs st k.1 else ∃ data, casOpen cs noFaults st k.1 = .ok data

theorem DirComplete.loads {st : Store} {hash : Bytes} (h : DirComplete cs st hash) :
    ∃ dir, casTreeLoad cs noFaults st hash = .ok dir ∧ ∀ e ∈ dir, Complete cs st (e.hash, e.isDir) := by
  obtain ⟨_, dir, hload, dirs, files⟩ := h
  refine ⟨dir, hload, fun e he => ?_⟩
  unfold Complete
  cases hd : e.isDir with
  | true => exact dirs e he hd
  | false => exact files e he hd

/-- And the other way round. -/
theorem DirComplete.of_entries {st : Store} {hash : Bytes} {dir : Dir}
    (hload : casTreeLoad cs noFaults st hash = .ok dir) (h : ∀ e ∈ dir, Complete cs st (e.hash, e.isDir)) :
    DirComplete cs st hash := by
  refine .mk hash dir hload (fun e he hd => ?_) fun e he hd => ?_
  · have := h e he
    rwa [hd] at this
  · have := h e he
    rwa [hd] at this

theorem DirComplete.kids {st : Store} {hash : Bytes} (h : DirComplete cs st hash) :
    ∀ k ∈ treeKids cs noFaults st hash, Complete cs st k := by
  obtain ⟨dir, hload, hall⟩ := h.loads
  intro k hk
  unfold treeKids at hk
  rw [hload] at hk
  obtain ⟨e, he, rfl⟩ := List.mem_map.mp hk
  exact hall e he

/-! ## The mark -/

section
variable {ct : CasTree} (hroots : ∀ r ∈ logRoots noFaults ct, DirComplete cs ct.store r)

include hroots

theorem reach_complete {into : Bytes → Prop} {k : Bytes × Bool}
    (h : Reach (treeKids cs noFaults ct.store) into (logRoots noFaults ct) k) : Complete cs ct.store k := by
  induction h with
  | root hr => exact hroots _ hr
  | kid _ _ hk ih => exact DirComplete.kids ih _ hk

theorem markWalk_complete : ∀ k ∈ markWalk cs noFaults ct, Complete cs ct.store k :=
  walk_sound (treeKids cs noFaults ct.store) (Complete cs ct.store) MARK_DEPTH (logRoots noFaults ct)
    (fun _ _ h => DirComplete.kids h) hroots

/-- The mark goes into directories that load. -/
theorem complete_mark : ¬ StopsMark cs noFaults ct := by
  rintro (⟨m, -, -, hf⟩ | ⟨hash, rc, hw, hl, -⟩)
  · cases hf
  · obtain ⟨dir, hload, -⟩ := DirComplete.loads (markWalk_complete hroots _ hw)
    rw [hload] at hl
    cases hl

/-- No directory is first mentioned as a file's contents: an address is that of the one or the other. -/
theorem complete_unshadowed {hash : Bytes} (h : Reachable cs ct hash) : Unshadowed cs ct hash := by
  obtain ⟨b, h⟩ := h
  refine ⟨b, ?_⟩
  generalize (hash, b) = k at h ⊢
  induction h with
  | root hr => exact .root hr
  | @kid n k hn _ hk ih =>
    refine .kid ih (fun hfirst => ?_) hk
    obtain ⟨data, hopen⟩ : ∃ data, casOpen cs noFaults ct.store n = .ok data := markWalk_complete hroots _ hfirst
    obtain ⟨dir, hload, -⟩ := DirComplete.loads (reach_complete hroots hn)
    rw [casTreeLoad_blob hopen] at hload
    cases hload

section
variable (grace now : Int) (fn : Nat → Bytes → Bool)

theorem complete_gc_ok : (casTreeGc cs noFaults ct grace now fn).1 = .ok :=
  gc_completes cs noFaults ct .gc grace now fn (complete_mark hroots) id

theorem complete_gc_reads {hash : Bytes} {obj : Object} (h : Reachable cs ct hash)
    (hopen : casOpenObject cs noFaults ct.store hash = .ok obj) :
    casOpenObject cs noFaults (casTreeGc cs noFaults ct grace now fn).2.1 hash = .ok obj :=
  (gc_read cs ct grace now fn hash obj hopen (complete_gc_ok hroots grace now fn)).1
    (.inr fun hs => hs.shadowed (complete_unshadowed hroots h))

end

end

end

end Smolvfs
