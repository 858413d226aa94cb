import Smolvfs.GcKeep

/-!
# The grace period

Both collectors end in the same sweep, which takes an unmarked object if it is older
than the cutoff.  A cutoff of zero stands for no grace period, so a grace as long as
the clock has run makes the sweep take everything; and an object whose time cannot be
read is taken as if it were old.

`gc_grace_honoured_iff`: apart from these two the grace period is honoured.
-/

namespace Smolvfs

open Octets

/-! ## What a sweep takes -/

section
variable (flt : Faults) (reachable : HashSet) (cutoff : Int) (fn : Nat → Bytes → Bool)

/-- A file that cannot be unlinked stays. -/
theorem sweepFrom_stuck (hash : Bytes) (hu : flt (.unlinkObj hash) = true) (hashes : List Bytes) (sw : Store × Nat) :
    (sweepFrom flt reachable cutoff fn sw hashes).1.loose.lookup hash = sw.1.loose.lookup hash := by
  induction hashes generalizing sw with
  | nil => rfl
  | cons x xs ih =>
    have hone : (sweepVisitor flt reachable cutoff fn sw x).1.1.loose.lookup hash = sw.1.loose.lookup hash := by
      rw [sweepVisitor_store]
      split
      · rfl
      · rcases casRemove_lookup flt sw.1 x hash with hl | ⟨rfl, -⟩
        · exact hl
        · unfold casRemove
          rw [if_pos hu]
          split
          · rfl
          · split <;> rfl
    unfold sweepFrom
    cases hv : sweepVisitor flt reachable cutoff fn sw x with
    | mk sw' stop =>
      rw [hv] at hone
      cases stop with
      | true => exact hone
      | false => exact (ih sw').trans hone

theorem spares_eq_false (st : Store) (hash : Bytes) : sweepSpares flt reachable cutoff st hash = false ↔
    hashSetContains reachable hash = false ∧
      (0 < cutoff → ∀ mtime, casObjectMtime flt st hash = .ok mtime → mtime < cutoff) := by
  unfold sweepSpares
  rw [Bool.or_eq_false_iff, Bool.and_eq_false_iff, decide_eq_false_iff_not]
  cases casObjectMtime flt st hash with
  | error rc => simp
  | ok mtime =>
    rw [decide_eq_false_iff_not, not_le, ← imp_iff_not_or]
    simp

/-- The sweep has the object to remove, and nothing keeps it from that. -/
structure Sweeps (st : Store) (hash : Bytes) : Prop where
  listed : hash ∈ (casForeach flt st).1
  unlinked : flt (.unlinkObj hash) = false

variable {st : Store} {hash : Bytes}

/-- What a sweep has taken it had found, and had not spared. -/
theorem sweep_taken {f : LooseFile} (hf : st.loose.lookup hash = some f)
    (hgone : (sweep flt reachable cutoff fn st).1.loose.lookup hash = none) :
    Sweeps flt st hash ∧ sweepSpares flt reachable cutoff st hash = false := by
  rcases (sweep_loses flt reachable cutoff fn st).loose hash with hl | ⟨-, hlisted, hspares⟩
  · rw [hl, hf] at hgone
    cases hgone
  · refine ⟨⟨hlisted, ?_⟩, hspares⟩
    by_contra hu
    have hstays := sweepFrom_stuck flt reachable cutoff fn hash (by simpa using hu) (casForeach flt st).1 (st, 0)
    unfold sweep at hgone
    rw [hstays, hf] at hgone
    cases hgone

/-- And it takes all of that when the callback lets it go on. -/
theorem sweep_takes (hgo : ∀ n h, fn n h = false) (h : Sweeps flt st hash)
    (hs : sweepSpares flt reachable cutoff st hash = false) :
    (sweep flt reachable cutoff fn st).1.loose.lookup hash = none := by
  have hv : validHash hash = true := by
    obtain ⟨-, -, hl⟩ := (mem_casForeach flt st hash).mp h.listed
    unfold foreachLists at hl
    simp only [Bool.and_eq_true] at hl
    exact hl.1.1
  exact sweepFrom_gone flt reachable cutoff fn hgo _ st _ (List.Subset.refl _) (st, 0) (LosesOnly.refl _ _) hash
    h.listed hv h.unlinked hs

end

/-! ## The sweep of a collection -/

/-- The set a collection marks and the store it comes to sweep, where it comes to that. -/
def GcCall.sweeps (cs : Codecs) (flt : Faults) (ct : CasTree) : GcCall → Option (HashSet × Store)
  | .gc =>
    match markRefs cs flt ct with
    | .error _ => none
    | .ok reachable => some (reachable, ct.store)
  | .gcPack policy codec =>
    match markRefs cs flt ct with
    | .error _ => none
    | .ok reachable =>
      match casPackCreateFiltered cs flt ct.store packDat policy codec (hashSetContains reachable) with
      | (.ok, st) => some (reachable, (casPackReclaim cs flt st packDat).1)
      | _ => none

section
variable (cs : Codecs) (flt : Faults) (ct : CasTree) (grace now : Int) (fn : Nat → Bytes → Bool)

/-- **Both collectors sweep alike.** -/
theorem run_sweeps {call : GcCall} {reachable : HashSet} {st : Store}
    (h : call.sweeps cs flt ct = some (reachable, st)) :
    call.run cs flt ct grace now fn = (.ok, (sweep flt reachable (gcCutoff grace now) fn st).1) := by
  cases call with
  | gc =>
    unfold GcCall.sweeps at h
    unfold GcCall.run casTreeGc
    cases hm : markRefs cs flt ct with
    | error rc =>
      rw [hm] at h
      cases h
    | ok hs =>
      rw [hm] at h
      cases h
      rfl
  | gcPack policy codec =>
    unfold GcCall.sweeps at h
    unfold GcCall.run casTreeGcPack
    cases hm : markRefs cs flt ct with
    | error rc =>
      rw [hm] at h
      cases h
    | ok hs =>
      rw [hm] at h
      dsimp only at h ⊢
      split at h
      · next st' hcreate =>
        rw [hcreate]
        cases h
        rfl
      · cases h

end

/-! ## The grace period -/

section
variable (cs : Codecs) (flt : Faults) (ct : CasTree) (call : GcCall) (reachable : HashSet) (st : Store)
  (grace now : Int)

/-- What a collection takes from the store it sweeps. -/
structure GraceHonoured : Prop where
  /-- It is unmarked, and known to be older than the grace period. -/
  old : ∀ fn hash f, st.loose.lookup hash = some f → (call.run cs flt ct grace now fn).2.loose.lookup hash = none →
    hashSetContains reachable hash = false ∧ ∃ mtime, casObjectMtime flt st hash = .ok mtime ∧ mtime < now - grace
  /-- A collection with a shorter grace takes it too, unless its callback stops it. -/
  mono : ∀ fn, (∀ n h, fn n h = false) → ∀ shorter, 0 < shorter → shorter ≤ grace → ∀ hash,
    (call.run cs flt ct grace now fn).2.loose.lookup hash = none →
    (call.run cs flt ct shorter now fn).2.loose.lookup hash = none

/-- The clock has run for longer than the grace period, or what there is to sweep is older all the same; and its
time can be read. -/
def TimesKnown : Prop := ∀ hash, Sweeps flt st hash → hashSetContains reachable hash = false →
  ∃ mtime, casObjectMtime flt st hash = .ok mtime ∧ (grace < now ∨ mtime < now - grace)

variable {cs flt ct call reachable st grace now}
variable (h : call.sweeps cs flt ct = some (reachable, st)) (hgrace : 0 < grace)

theorem sweeps_file {hash : Bytes} (hs : Sweeps flt st hash) : ∃ f, st.loose.lookup hash = some f := by
  obtain ⟨-, hfile, -⟩ := (mem_casForeach flt st hash).mp hs.listed
  unfold Store.hasLoose at hfile
  exact Option.isSome_iff_exists.mp hfile

include h hgrace

/-- **What is honoured had its time known**: otherwise a sweep that is not stopped takes it. -/
theorem GraceHonoured.timesKnown (hon : GraceHonoured cs flt ct call reachable st grace now) :
    TimesKnown flt reachable st grace now := by
  intro hash hs hun
  obtain ⟨f, hf⟩ := sweeps_file hs
  by_cases hspares : sweepSpares flt reachable (gcCutoff grace now) st hash = false
  · have hgone := sweep_takes flt reachable (gcCutoff grace now) (fun _ _ => false) (fun _ _ => rfl) hs hspares
    obtain ⟨-, mtime, hmtime, hlt⟩ := hon.old (fun _ _ => false) hash f hf (by
      rw [run_sweeps cs flt ct grace now _ h]
      exact hgone)
    exact ⟨mtime, hmtime, Or.inr hlt⟩
  · -- it is spared for its time, so the cutoff is a time
    rw [spares_eq_false, not_and] at hspares
    have htime := hspares hun
    push Not at htime
    obtain ⟨hpos, mtime, hmtime, -⟩ := htime
    refine ⟨mtime, hmtime, Or.inl ?_⟩
    unfold gcCutoff at hpos
    rw [if_pos hgrace] at hpos
    omega

omit h in
theorem TimesKnown.old (hk : TimesKnown flt reachable st grace now) {hash : Bytes} (hs : Sweeps flt st hash)
    (hspares : sweepSpares flt reachable (gcCutoff grace now) st hash = false) :
    hashSetContains reachable hash = false ∧ ∃ mtime, casObjectMtime flt st hash = .ok mtime ∧ mtime < now - grace := by
  obtain ⟨hun, hcut⟩ := (spares_eq_false flt reachable _ st hash).mp hspares
  obtain ⟨mtime, hmtime, hlate | hold⟩ := hk hash hs hun
  · refine ⟨hun, mtime, hmtime, ?_⟩
    unfold gcCutoff at hcut
    rw [if_pos hgrace] at hcut
    exact hcut (by omega) mtime hmtime
  · exact ⟨hun, mtime, hmtime, hold⟩

/-- **The grace period is honoured exactly when the times are known and the clock has run for longer.** -/
theorem gc_grace_honoured_iff :
    GraceHonoured cs flt ct call reachable st grace now ↔ TimesKnown flt reachable st grace now := by
  constructor
  · exact fun hon => hon.timesKnown h hgrace
  · intro hk
    constructor
    case old =>
      intro fn hash f hf hgone
      rw [run_sweeps cs flt ct grace now fn h] at hgone
      obtain ⟨hs, hspares⟩ := sweep_taken flt reachable _ fn hf hgone
      exact hk.old hgrace hs hspares
    case mono =>
      intro fn hgo shorter hpos hle hash hgone
      rw [run_sweeps cs flt ct grace now fn h] at hgone
      rw [run_sweeps cs flt ct shorter now fn h]
      cases hf : st.loose.lookup hash with
      | none =>
        rcases (sweep_loses flt reachable (gcCutoff shorter now) fn st).loose hash with hl | ⟨hl, -⟩
        · exact hl.trans hf
        · exact hl
      | some f =>
        obtain ⟨hs, hspares⟩ := sweep_taken flt reachable _ fn hf hgone
        obtain ⟨hun, mtime, hmtime, hlt⟩ := hk.old hgrace hs hspares
        apply sweep_takes flt reachable (gcCutoff shorter now) fn hgo hs
        rw [spares_eq_false]
        refine ⟨hun, fun _ mtime' hmtime' => ?_⟩
        obtain rfl : mtime = mtime' := Except.ok.inj (hmtime.symm.trans hmtime')
        unfold gcCutoff
        rw [if_pos hpos]
        omega

end

/-- A depot without refs that holds one object, written at the time given. -/
def orphanTree (mtime : Int) : CasTree := ⟨⟨AList.singleton zeroHash ⟨[], mtime⟩, fun _ => none, none⟩, none⟩

theorem orphanTree_lookup (mtime : Int) : (orphanTree mtime).store.loose.lookup zeroHash = some ⟨[], mtime⟩ := by
  unfold orphanTree AList.lookup AList.singleton
  exact List.dlookup_cons_eq _ _ _

theorem orphanTree_sweeps (flt : Faults) (mtime : Int) (hopen : flt .openDepot = false)
    (hbucket : flt (.openBucket (zeroHash.take 2)) = false) (hunlink : flt (.unlinkObj zeroHash) = false) :
    GcCall.gc.sweeps [] flt (orphanTree mtime) = some (HashSet.init, (orphanTree mtime).store) ∧
      Sweeps flt (orphanTree mtime).store zeroHash := by
  refine ⟨rfl, (mem_casForeach _ _ _).mpr ⟨hopen, ?_, ?_⟩, hunlink⟩
  · unfold Store.hasLoose
    rw [orphanTree_lookup]
    rfl
  · unfold foreachLists
    rw [hbucket]
    decide

theorem gc_grace_honoured_orphan :
    GraceHonoured [] noFaults (orphanTree 0) .gc HashSet.init (orphanTree 0).store 3600 1700000000 ↔
      TimesKnown noFaults HashSet.init (orphanTree 0).store 3600 1700000000 :=
  gc_grace_honoured_iff (orphanTree_sweeps noFaults 0 rfl rfl rfl).1 (by decide)

/-- With a grace longer than the clock has run an object is taken as it is written, and so is one that has no time
to be read within the grace period. -/
theorem gc_grace_ignored :
    ¬ GraceHonoured [] noFaults (orphanTree 1700000000) .gc HashSet.init (orphanTree 1700000000).store 2000000000
        1700000000 ∧
      ¬ GraceHonoured [] (fun s => decide (s = .statObj zeroHash)) (orphanTree 1700000000) .gc HashSet.init
        (orphanTree 1700000000).store 3600 1700000000 := by
  constructor
  · intro hon
    obtain ⟨hstart, hs⟩ := orphanTree_sweeps noFaults 1700000000 rfl rfl rfl
    obtain ⟨mtime, hmtime, hlt⟩ := hon.timesKnown hstart (by decide) zeroHash hs rfl
    have heq : mtime = 1700000000 := by
      unfold casObjectMtime at hmtime
      rw [if_neg (by decide), orphanTree_lookup] at hmtime
      exact (Except.ok.inj hmtime).symm
    omega
  · intro hon
    obtain ⟨hstart, hs⟩ := orphanTree_sweeps (fun s => decide (s = .statObj zeroHash)) 1700000000 rfl rfl rfl
    obtain ⟨mtime, hmtime, -⟩ := hon.timesKnown hstart (by decide) zeroHash hs rfl
    unfold casObjectMtime at hmtime
    rw [if_neg (by decide), orphanTree_lookup] at hmtime
    cases hmtime

end Smolvfs
