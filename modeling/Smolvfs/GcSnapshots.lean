import Smolvfs.GcComplete
import Smolvfs.RefLog
import Smolvfs.SnapStore

/-!
# Collecting where there are snapshots

`cas_tree_gc` in a depot whose logs name snapshots only: the mark comes to its end, no
directory is taken for a file's contents, and what stands for a filesystem goes on
standing for it (`StandsFor.collected`).
-/

namespace Smolvfs

open Octets Keyed Names Walk

section
variable {cs : Codecs}

/-- What stands for a directory is complete. -/
theorem StandsFor.complete {st : Store} {fs : Vfs} {fuel : Nat} {d : List Bytes} {hash : Bytes}
    (h : StandsFor cs st fs fuel d hash) : DirComplete cs st hash := by
  induction fuel generalizing d hash with
  | zero => exact h.elim
  | succ fuel ih =>
    obtain ⟨dir, hload, hnames, hall⟩ := h
    refine .of_entries hload fun e he => ?_
    obtain ⟨n, hn⟩ := (hnames e.name.bytes).mp ⟨e, he, rfl⟩
    rcases hall e he n hn with ⟨-, hreg, hopen⟩ | ⟨-, hdir, hsub⟩
    · rw [isReg_not_isDir hreg]
      exact ⟨n.data, hopen⟩
    · rw [hdir]
      exact ih hsub

section
variable {ct : CasTree} (hroots : ∀ r ∈ logRoots noFaults ct, DirComplete cs ct.store r) (grace now : Int)
  (fn : Nat → Bytes → Bool)

include hroots

/-- **A collection keeps a snapshot** whose root a log names. -/
theorem StandsFor.collected {fs : Vfs} {fuel : Nat} {d : List Bytes} {hash : Bytes}
    (h : StandsFor cs ct.store fs fuel d hash)
    (hreach : Reach (treeKids cs noFaults ct.store) (fun _ => True) (logRoots noFaults ct) (hash, true)) :
    StandsFor cs (casTreeGc cs noFaults ct grace now fn).2.1 fs fuel d hash := by
  have hsame : ∀ other b, Reach (treeKids cs noFaults ct.store) (fun _ => True) (logRoots noFaults ct) (other, b) →
      ∀ obj, casOpenObject cs noFaults ct.store other = .ok obj →
        casOpenObject cs noFaults (casTreeGc cs noFaults ct grace now fn).2.1 other = .ok obj :=
    fun other b hr obj hopen => complete_gc_reads hroots grace now fn ⟨b, hr⟩ hopen
  induction fuel generalizing d hash with
  | zero => exact h
  | succ fuel ih =>
    obtain ⟨dir, hload, hnames, hall⟩ := h
    have hkid : ∀ e ∈ dir, Reach (treeKids cs noFaults ct.store) (fun _ => True) (logRoots noFaults ct)
        (e.hash, e.isDir) := by
      intro e he
      refine .kid hreach trivial ?_
      unfold treeKids
      rw [hload]
      exact List.mem_map_of_mem he
    refine ⟨dir, casTreeLoad_kept (hsame hash true hreach) hload, hnames, fun e he n hn => ?_⟩
    rcases hall e he n hn with ⟨hfile, hreg, hopen⟩ | ⟨hdir, hisDir, hsub⟩
    · exact Or.inl ⟨hfile, hreg, casOpen_kept (hsame e.hash _ (hkid e he)) hopen⟩
    · exact Or.inr ⟨hdir, hisDir, ih hsub (hisDir ▸ hkid e he)⟩

end

theorem NoneOther.collected {objs : List SnapObject} {ct : CasTree} (hn : NoneOther cs objs ct.store)
    (grace now : Int) (fn : Nat → Bytes → Bool) :
    NoneOther cs objs (casTreeGc cs noFaults ct grace now fn).2.1 := by
  intro o ho hleft
  obtain ⟨hstored, hsame⟩ := gc_left_reads cs ct grace now fn (lowerHash_address o).valid hleft
  have hreads := hn o ho hstored
  have hkept : ∀ obj, casOpenObject cs noFaults ct.store o.address = .ok obj →
      casOpenObject cs noFaults (casTreeGc cs noFaults ct grace now fn).2.1 o.address = .ok obj :=
    fun obj hopen => hsame.trans hopen
  cases o with
  | blob data => exact casOpen_kept hkept hreads
  | tree dir => exact casTreeLoad_kept hkept hreads

end

end Smolvfs
