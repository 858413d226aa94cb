import Smolvfs.Gc
import Smolvfs.Repack

/-!
# What the mark phase does

The roots of a mark are the hashes the readable parts of the logs name.
`markRefs_spec`: the marked set is what the walk from the roots meets, and the
mark fails exactly when that walk comes upon an object to go into that fails to
load for another reason than absence, or upon a count at which the set cannot grow.

`incomplete_mark_refused_iff`: a mark that has missed something makes the call fail,
with nothing deleted, exactly when one of these failures, or that of building the
pack, came with it.  A log that cannot be read to its end is none of them.
-/

namespace Smolvfs

open Octets Growth Walk

/-! ## The hashes a tree can name -/

theorem length_takeWhile_le (p : UInt8 → Bool) (b : Bytes) (n : Nat) (h : b.length ≤ n) :
    (b.takeWhile p).length ≤ n := Nat.le_trans (List.takeWhile_sublist p).length_le h

theorem parseEntry_hash (line : Bytes) (linelen : Nat) (e : Entry) (h : parseEntry line linelen = some e) :
    e.hash.length ≤ CAS_HASH_HEX := by
  unfold parseEntry at h
  split at h
  · cases h
  · split at h
    · cases h
    · split at h
      · cases h
      · simp only [] at h
        split at h
        · cases h
        · obtain rfl := Option.some.inj h
          exact length_takeWhile_le _ _ _ (List.length_take_le _ _)

theorem textLoad_hashes (noMem : Bool) (fuel : Nat) (p : Bytes) (dir out : Dir)
    (hd : ∀ e ∈ dir, e.hash.length ≤ CAS_HASH_HEX) (h : textLoad noMem fuel p dir = .ok out) :
    ∀ e ∈ out, e.hash.length ≤ CAS_HASH_HEX :=
  textLoad_forall _ noMem fuel p dir out (fun line linelen e _ _ he _ => parseEntry_hash line linelen e he) hd h

/-- No child's hash is longer than a hash is. -/
theorem casTreeLoad_hashes (cs : Codecs) (flt : Faults) (st : Store) (hash : Bytes) (dir : Dir)
    (h : casTreeLoad cs flt st hash = .ok dir) : ∀ e ∈ dir, e.hash.length ≤ CAS_HASH_HEX := by
  unfold casTreeLoad at h
  split at h
  · cases h
  · next type data _ =>
    split at h
    · unfold treeTextLoad at h
      split at h
      · cases h
      · split at h
        · cases h
        · exact textLoad_hashes _ _ _ [] dir (by simp) h
    · split at h
      · intro e he
        exact Nat.le_of_eq ((htreeParseDir_listed _ data dir h).1 e he).hash.1
      · cases h

/-! ## The hashes a log can name -/

theorem parseLogLine_hash (line : Bytes) (e : LogEntry) (h : parseLogLine line = some e) :
    e.hash.length ≤ CAS_HASH_HEX := by
  unfold parseLogLine at h
  split at h
  · cases h
  · split at h
    · cases h
    · obtain ⟨⟨timeS, s⟩, -, h⟩ := Option.bind_eq_some_iff.mp h
      obtain ⟨⟨timeNs, s'⟩, -, rfl⟩ := Option.map_eq_some_iff.mp h
      exact List.length_take_le _ _

theorem logRead_hashes (flt : Faults) (name : Bytes) (fuel n : Nat) (s : Bytes) :
    ∀ e ∈ (logRead flt name fuel n s).1, e.hash.length ≤ CAS_HASH_HEX := by
  induction fuel generalizing n s with
  | zero => simp [logRead]
  | succ fuel ih =>
    unfold logRead
    split
    · simp
    · split
      · simp
      · simp only []
        split
        · split <;> simp
        · split
          · simp
          · next e he =>
            intro x hx
            rcases List.mem_cons.mp hx with rfl | hx
            · exact parseLogLine_hash _ _ he
            · exact ih _ _ x hx

theorem casTreeLogRead_hashes (flt : Faults) (refs : Refs) (name : Bytes) :
    ∀ e ∈ (casTreeLogRead flt refs name).1, e.hash.length ≤ CAS_HASH_HEX := by
  unfold casTreeLogRead
  split
  · simp
  · split
    · simp
    · split
      · simp
      · exact logRead_hashes flt name _ _ _

/-! ## The walk of a depot -/

section
variable (cs : Codecs) (flt : Faults) (ct : CasTree)

/-- The hashes of the log entries that can be read, ref by ref. -/
def logRoots : List Bytes :=
  (casTreeRefForeach flt ct.refs).flatMap fun name => (casTreeLogRead flt ct.refs name).1.map LogEntry.hash

/-- The walk from them. -/
def markWalk : List (Bytes × Bool) := walk (treeKids cs flt ct.store) MARK_DEPTH (logRoots flt ct)

/-- A hash string of at most the length of a hash. -/
def ShortHash (hash : Bytes) : Prop := hash.length ≤ CAS_HASH_HEX

theorem logRoots_short : ∀ r ∈ logRoots flt ct, ShortHash r := by
  intro r hr
  obtain ⟨name, -, hr⟩ := List.mem_flatMap.mp hr
  obtain ⟨e, he, rfl⟩ := List.mem_map.mp hr
  exact casTreeLogRead_hashes flt ct.refs name e he

theorem treeKids_bounded : Bounded (treeKids cs flt ct.store) ShortHash MARK_DEPTH where
  kids := by
    intro n _ k hk
    unfold treeKids at hk
    split at hk
    · next dir hload =>
      obtain ⟨e, he, rfl⟩ := List.mem_map.mp hk
      exact casTreeLoad_hashes cs flt ct.store n dir hload e he
    · cases hk
  count := fun l hl hs => length_le_of_short CAS_HASH_HEX l hl hs

theorem foldlM_flatMap {α β σ : Type} (f : σ → β → Except Status σ) (g : α → List β) (l : List α) (s : σ) :
    (l.flatMap g).foldlM f s = l.foldlM (fun s a => (g a).foldlM f s) s := by
  induction l generalizing s with
  | nil => rfl
  | cons a l ih =>
    rw [List.flatMap_cons, List.foldlM_append, List.foldlM_cons]
    congr 1
    funext s
    exact ih s

theorem markRefs_eq : markRefs cs flt ct =
    ((logRoots flt ct).map fun r => (r, true)).foldlM (markMention cs flt ct.store MARK_DEPTH) HashSet.init := by
  unfold markRefs logRoots
  rw [List.foldlM_map, foldlM_flatMap]
  congr 1
  funext hs name
  unfold markRef
  rw [List.foldlM_map]
  rfl

/-- **The mark**: its set is what the walk meets, and it fails exactly when the walk is not fine. -/
theorem markRefs_spec : MarksAs cs flt ct.store (markRefs cs flt ct) [] (markWalk cs flt ct) := by
  rw [markRefs_eq]
  have hb := treeKids_bounded cs flt ct
  refine marks_spec cs flt ct.store MARK_DEPTH 0 _
    (fun hs s k h1 h2 h3 _ => markMention_spec cs flt ct.store hb MARK_DEPTH hs s k h1 h2 h3 (by omega))
    (fun s k h1 h2 _ => (visit_goneInto (treeKids cs flt ct.store) hb MARK_DEPTH s k h1 h2 (by omega)).1)
    _ [] standsAt_init ⟨List.nodup_nil, by simp [met]⟩ ?_ (Nat.zero_le _)
  intro e he
  obtain ⟨r, hr, rfl⟩ := List.mem_map.mp he
  exact logRoots_short flt ct r hr

/-- A mark that ends well has walked well, and its set is what the walk met. -/
theorem markRefs_ok (hs : HashSet) (h : markRefs cs flt ct = .ok hs) :
    MarkFine cs flt ct.store [] (markWalk cs flt ct) ∧
      hashSetContains hs = fun hash => decide (hash ∈ met (markWalk cs flt ct)) := by
  have hspec := markRefs_spec cs flt ct
  rw [h] at hspec
  refine ⟨hspec.2, ?_⟩
  funext hash
  rw [Bool.eq_iff_iff, hspec.1.contains, decide_eq_true_iff]

theorem markRefs_error (rc : Status) (h : markRefs cs flt ct = .error rc) :
    rc ≠ .ok ∧ ¬ MarkFine cs flt ct.store [] (markWalk cs flt ct) := by
  have hspec := markRefs_spec cs flt ct
  rw [h] at hspec
  exact hspec

end

/-! ## A mark that is not complete -/

/-- A call of one of the two collectors. -/
inductive GcCall
  | gc
  | gcPack (policy : Policy) (codec : Int)

/-- The result code and the store afterwards. -/
def GcCall.run (cs : Codecs) (flt : Faults) (ct : CasTree) (grace now : Int) (fn : Nat → Bytes → Bool) :
    GcCall → Status × Store
  | .gc =>
    let r := casTreeGc cs flt ct grace now fn
    (r.1, r.2.1)
  | .gcPack policy codec =>
    let r := casTreeGcPack cs flt ct grace now policy codec fn
    (r.1, r.2.1)

/-- The reading of a log reports an error, or gives other entries than its file has: a read that fails
looks like the end of the file. -/
def LogUnread (flt : Faults) (refs : Refs) (name : Bytes) : Prop :=
  (casTreeLogRead flt refs name).2 ≠ .ok ∨ casTreeLogRead flt refs name ≠ casTreeLogRead noFaults refs name

section
variable (cs : Codecs) (flt : Faults) (ct : CasTree)

/-- The ways in which a mark can miss something. -/
inductive MarkIncomplete : Prop
  | refsUnlisted (h : ct.refs.isSome = true) (hf : flt .openRefs = true)
  | logUnread (name : Bytes) (hn : name ∈ casTreeRefForeach flt ct.refs) (hu : LogUnread flt ct.refs name)
  | setFull (m : Nat) (hm : m < (markWalk cs flt ct).length) (hg : GrowsAt m) (hf : flt (.growSet m) = true)
  | treeUnloaded (hash : Bytes)
    (hr : Reach (treeKids cs flt ct.store) (fun _ => True) (logRoots flt ct) (hash, true))
    (hp : casExists ct.store hash = true) (rc : Status) (hl : casTreeLoad cs flt ct.store hash = .error rc)

/-- The failures the mark passes on: the set cannot grow, or an object that is gone into, because its first
mention is a root's or a directory's, fails to load with another code than `CAS_ENOTFOUND`. -/
def StopsMark : Prop :=
  (∃ m < (markWalk cs flt ct).length, GrowsAt m ∧ flt (.growSet m) = true) ∨
    ∃ hash rc, (hash, true) ∈ markWalk cs flt ct ∧ casTreeLoad cs flt ct.store hash = .error rc ∧ rc ≠ .enotfound

/-- The new pack of what the mark meets cannot be built. -/
def GcCall.PackFails : GcCall → Prop
  | .gc => False
  | .gcPack policy codec =>
    (casPackCreateFiltered cs flt ct.store packDat policy codec
      fun hash => decide (hash ∈ met (markWalk cs flt ct))).1 ≠ .ok

theorem stopsMark_iff : StopsMark cs flt ct ↔ ¬ MarkFine cs flt ct.store [] (markWalk cs flt ct) := by
  constructor
  · rintro (⟨m, hm, hg, hf⟩ | ⟨hash, rc, hw, hl, hrc⟩) hfine
    · rw [hfine.grows m (Nat.zero_le _) hm hg] at hf
      cases hf
    · exact hrc (hfine.loads hash hw (by simp) rc hl)
  · intro h
    by_contra hno
    refine h ⟨?_, ?_⟩
    · intro m _ hm hg
      by_contra hf
      exact hno (.inl ⟨m, hm, hg, by simpa using hf⟩)
    · intro n hn _ rc hl
      by_contra hrc
      exact hno (.inr ⟨n, rc, hn, hl, hrc⟩)

variable (call : GcCall) (grace now : Int) (fn : Nat → Bytes → Bool)

/-- A failure the mark passes on ends the call, and nothing has changed. -/
theorem gc_stopped (h : StopsMark cs flt ct) :
    ∃ rc, rc ≠ .ok ∧ call.run cs flt ct grace now fn = (rc, ct.store) := by
  cases hm : markRefs cs flt ct with
  | ok reachable => exact absurd (markRefs_ok cs flt ct reachable hm).1 ((stopsMark_iff cs flt ct).mp h)
  | error rc =>
    refine ⟨rc, (markRefs_error cs flt ct rc hm).1, ?_⟩
    cases call with
    | gc =>
      unfold GcCall.run casTreeGc
      rw [hm]
    | gcPack policy codec =>
      unfold GcCall.run casTreeGcPack
      rw [hm]

/-- Without one there is a marked set, of what the walk meets. -/
theorem mark_completes (h : ¬ StopsMark cs flt ct) :
    ∃ reachable, markRefs cs flt ct = .ok reachable ∧
      hashSetContains reachable = fun hash => decide (hash ∈ met (markWalk cs flt ct)) := by
  cases hm : markRefs cs flt ct with
  | ok reachable => exact ⟨reachable, rfl, (markRefs_ok cs flt ct reachable hm).2⟩
  | error rc => exact absurd ((stopsMark_iff cs flt ct).mpr (markRefs_error cs flt ct rc hm).2) h

/-- The pack that cannot be built ends the call, and nothing has changed. -/
theorem gc_pack_failed (h : ¬ StopsMark cs flt ct) (hp : call.PackFails cs flt ct) :
    ∃ rc, rc ≠ .ok ∧ call.run cs flt ct grace now fn = (rc, ct.store) := by
  obtain ⟨reachable, hm, hset⟩ := mark_completes cs flt ct h
  cases call with
  | gc => exact hp.elim
  | gcPack policy codec =>
    simp only [GcCall.PackFails] at hp
    unfold GcCall.run casTreeGcPack
    rw [hm]
    simp only [hset]
    cases hc : casPackCreateFiltered cs flt ct.store packDat policy codec
        (fun hash => decide (hash ∈ met (markWalk cs flt ct))) with
    | mk rc st =>
      rw [hc] at hp
      obtain rfl : st = ct.store := packCreate_failed cs flt ct.store st packDat policy codec _ rc hc hp
      refine ⟨rc, hp, ?_⟩
      cases rc with
      | ok => exact absurd rfl hp
      | _ => rfl

/-- Otherwise the call ends well. -/
theorem gc_completes (h : ¬ StopsMark cs flt ct) (hp : ¬ call.PackFails cs flt ct) :
    (call.run cs flt ct grace now fn).1 = .ok := by
  obtain ⟨reachable, hm, hset⟩ := mark_completes cs flt ct h
  cases call with
  | gc =>
    unfold GcCall.run casTreeGc
    rw [hm]
  | gcPack policy codec =>
    simp only [GcCall.PackFails] at hp
    unfold GcCall.run casTreeGcPack
    rw [hm]
    simp only [hset]
    cases hc : casPackCreateFiltered cs flt ct.store packDat policy codec
        (fun hash => decide (hash ∈ met (markWalk cs flt ct))) with
    | mk rc st =>
      rw [hc] at hp
      obtain rfl : rc = .ok := by simpa using hp
      rfl

/-- The call returned an error and the store is what it was. -/
def Refused (r : Status × Store) : Prop := r.1 ≠ .ok ∧ r.2 = ct.store

/-- **An incomplete mark deletes nothing exactly when what made it incomplete came with a failure that the
mark passes on**, or the pack could not be built. -/
theorem incomplete_mark_refused_iff :
    (MarkIncomplete cs flt ct → Refused ct (call.run cs flt ct grace now fn)) ↔
      (MarkIncomplete cs flt ct → StopsMark cs flt ct ∨ call.PackFails cs flt ct) := by
  constructor
  · intro h hinc
    obtain ⟨hrc, -⟩ := h hinc
    by_contra hno
    exact hrc (gc_completes cs flt ct call grace now fn (fun hs => hno (.inl hs)) fun hp => hno (.inr hp))
  · intro h hinc
    by_cases hs : StopsMark cs flt ct
    · obtain ⟨rc, hrc, hrun⟩ := gc_stopped cs flt ct call grace now fn hs
      rw [hrun]
      exact ⟨hrc, rfl⟩
    · obtain ⟨rc, hrc, hrun⟩ := gc_pack_failed cs flt ct call grace now fn hs ((h hinc).resolve_left hs)
      rw [hrun]
      exact ⟨hrc, rfl⟩

end

/-- A refs directory with one ref, named `m`, and its log. -/
def oneLog (log : Bytes) : Refs :=
  some (((∅ : AList fun _ : Bytes => Bytes).insert ([109] ++ dotLog) log).insert ([109] ++ dotRoot) (zeroHash ++ [10]))

/-- The log has a first line that is none, then one that names the only object of the depot. -/
def damagedLog : CasTree where
  store := ⟨AList.singleton zeroHash ⟨1 :: byteTrailer, 0⟩, fun _ => none, none⟩
  refs := oneLog (120 :: 10 :: logLine zeroHash 0 0 [])

theorem damagedLog_incomplete : MarkIncomplete [] noFaults damagedLog :=
  .logUnread [109] (by decide +kernel) (.inl (by decide +kernel))

/-- The collector goes on with what came before the bad line, which is nothing, and removes the object. -/
theorem damaged_log_not_refused :
    ¬ (MarkIncomplete [] noFaults damagedLog →
      Refused damagedLog (GcCall.gc.run [] noFaults damagedLog 0 0 fun _ _ => false)) ∧
    damagedLog.store.hasLoose zeroHash = true ∧
      (GcCall.gc.run [] noFaults damagedLog 0 0 fun _ _ => false).2.hasLoose zeroHash = false := by
  refine ⟨?_, by decide +kernel, by decide +kernel⟩
  intro h
  have hok : (GcCall.gc.run [] noFaults damagedLog 0 0 fun _ _ => false).1 = .ok := by decide +kernel
  exact (h damagedLog_incomplete).1 hok

end Smolvfs
