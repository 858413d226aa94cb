import Smolvfs.Lib.Walk
import Smolvfs.Reclaim
import Smolvfs.Refs

/-!
# Garbage collection

`cas-gc.c`: `mark_tree` keeps in one set what is reachable and what has been gone
into, the refs and their logs give it the roots, and the sweep removes the loose
objects that are not in the set and not younger than the grace period.
`cas_tree_gc_pack` also rebuilds the pack from what is in the set.

`mark_spec`: the set is what the depth-first walk of the trees meets, and the mark
fails exactly when the walk comes upon a tree that cannot be loaded, though it is
there, or when the set cannot grow.
-/

namespace Smolvfs

open Octets Growth Walk

/-! ## The set of marked hashes -/

/-- `struct hash_set` -/
structure HashSet where
  hashes : List Bytes
  cap : Nat

/-- `hash_set_init` -/
def HashSet.init : HashSet := ⟨[], 0⟩

instance (hash : Bytes) (hashes : List Bytes) : Decidable (hash ∈ hashes) := inferInstance

/-- `hash_set_contains` -/
def hashSetContains (hs : HashSet) (hash : Bytes) : Bool := decide (hash ∈ hs.hashes)

/-- `hash_set_add` -/
def hashSetAdd (flt : Faults) (hs : HashSet) (hash : Bytes) : Except Status HashSet :=
  if hashSetContains hs hash then .ok hs
  else if hs.hashes.length ≥ hs.cap then
    if flt (.growSet hs.hashes.length) then .error .enomem
    else .ok ⟨hs.hashes ++ [hash], if hs.cap = 0 then 64 else hs.cap * 2⟩
  else .ok ⟨hs.hashes ++ [hash], hs.cap⟩

/-! ## Marking -/

/-- More levels than there are hash strings: a level of the recursion puts one into the set. -/
def MARK_DEPTH : Nat := 257 ^ 64

/-- `mark_tree`; `fuel` bounds the depth. -/
def markTree (cs : Codecs) (flt : Faults) (st : Store) : Nat → HashSet → Bytes → Except Status HashSet
  | 0, hs, hash => hashSetAdd flt hs hash
  | fuel + 1, hs, hash =>
    if hashSetContains hs hash then .ok hs
    else
      match hashSetAdd flt hs hash with
      | .error rc => .error rc
      | .ok hs =>
        match casTreeLoad cs flt st hash with
        -- a missing object is where the history was pruned
        | .error .enotfound => .ok hs
        | .error rc => .error rc
        | .ok dir =>
          dir.foldlM
            (fun hs e => if e.isDir then markTree cs flt st fuel hs e.hash else hashSetAdd flt hs e.hash) hs

/-- `mark_ref`: the mark of every log entry; what `cas_tree_log_read` returns is not looked at. -/
def markRef (cs : Codecs) (flt : Faults) (ct : CasTree) (hs : HashSet) (name : Bytes) : Except Status HashSet :=
  (casTreeLogRead flt ct.refs name).1.foldlM (fun hs e => markTree cs flt ct.store MARK_DEPTH hs e.hash) hs

/-- The mark phase of both collectors; what `cas_tree_ref_foreach` returns is not looked at. -/
def markRefs (cs : Codecs) (flt : Faults) (ct : CasTree) : Except Status HashSet :=
  (casTreeRefForeach flt ct.refs).foldlM (markRef cs flt ct) HashSet.init

/-! ## Sweeping -/

/-- `.cutoff` -/
def gcCutoff (grace now : Int) : Int := if grace > 0 then now - grace else 0

/-- The two reasons for which `sweep_visitor` leaves an object alone. -/
def sweepSpares (flt : Faults) (reachable : HashSet) (cutoff : Int) (st : Store) (hash : Bytes) : Bool :=
  hashSetContains reachable hash ||
    (decide (cutoff > 0) &&
      match casObjectMtime flt st hash with
      | .ok mtime => decide (mtime ≥ cutoff)
      | .error _ => false)

/-- `sweep_visitor` on the store and the count of what is removed; `true` stops the sweep.  The callback
answers to the count and the hash, so that it may have a state of its own. -/
def sweepVisitor (flt : Faults) (reachable : HashSet) (cutoff : Int) (fn : Nat → Bytes → Bool)
    (sw : Store × Nat) (hash : Bytes) : (Store × Nat) × Bool :=
  if sweepSpares flt reachable cutoff sw.1 hash then (sw, false)
  else
    match casRemove flt sw.1 hash with
    | (.ok, st) => ((st, sw.2 + 1), fn (sw.2 + 1) hash)
    | (_, st) => ((st, sw.2), false)

/-- `cas_foreach` with `sweep_visitor` as its callback. -/
def sweepFrom (flt : Faults) (reachable : HashSet) (cutoff : Int) (fn : Nat → Bytes → Bool) :
    Store × Nat → List Bytes → Store × Nat
  | sw, [] => sw
  | sw, hash :: hashes =>
    match sweepVisitor flt reachable cutoff fn sw hash with
    | (sw, true) => sw
    | (sw, false) => sweepFrom flt reachable cutoff fn sw hashes

def sweep (flt : Faults) (reachable : HashSet) (cutoff : Int) (fn : Nat → Bytes → Bool) (st : Store) : Store × Nat :=
  sweepFrom flt reachable cutoff fn (st, 0) (casForeach flt st).1

/-! ## The collectors -/

/-- `cas_tree_gc`: the store and `*removed`, which is not set (0 here) when an error is returned. -/
def casTreeGc (cs : Codecs) (flt : Faults) (ct : CasTree) (grace now : Int) (fn : Nat → Bytes → Bool) :
    Status × Store × Nat :=
  match markRefs cs flt ct with
  | .error rc => (rc, ct.store, 0)
  | .ok reachable => (.ok, sweep flt reachable (gcCutoff grace now) fn ct.store)

/-- `cas_tree_gc_pack`: the store, `*removed` and `*reclaimed`, which are not set (0 here) on an error. -/
def casTreeGcPack (cs : Codecs) (flt : Faults) (ct : CasTree) (grace now : Int) (policy : Policy) (codec : Int)
    (fn : Nat → Bytes → Bool) : Status × Store × Nat × Nat :=
  match markRefs cs flt ct with
  | .error rc => (rc, ct.store, 0, 0)
  | .ok reachable =>
    match casPackCreateFiltered cs flt ct.store packDat policy codec (hashSetContains reachable) with
    | (.ok, st) =>
      let packed := casPackReclaim cs flt st packDat
      let sw := sweep flt reachable (gcCutoff grace now) fn packed.1
      (.ok, sw.1, sw.2, packed.2)
    | (rc, st) => (rc, st, 0, 0)

/-! ## An error has a code of its own -/

theorem regionDecode_ne_ok (cs : Codecs) (noBuf : Bool) (region : Bytes) (framed : Bool) (n : Nat) :
    casCodecRegionDecode cs noBuf region framed n ≠ .error .ok := by
  unfold casCodecRegionDecode casCodecDecode
  repeat' split
  all_goals simp

theorem casPackLookup_ne_ok (cs : Codecs) (noBuf : Bool) (p : Pack) (hash : Bytes) :
    casPackLookup cs noBuf p hash ≠ .error .ok := by
  unfold casPackLookup
  split
  · simp
  · split
    · simp
    · next e _ =>
      simp only []
      split
      · simp
      · split
        · simp
        · split
          · simp
          · next type n _ =>
            generalize (if p.entryStored e ≠ 0 then p.entryStored e else n) = regionSize
            split
            · simp
            · exact map_ne_ok _ _ (regionDecode_ne_ok cs noBuf _ _ _)

theorem looseOpen_ne_ok (cs : Codecs) (flt : Faults) (st : Store) (hash : Bytes) :
    looseOpen cs flt st hash ≠ .error .ok := by
  unfold looseOpen
  split
  · next rc h =>
    rintro heq
    obtain rfl := Except.error.inj heq
    exact looseMap_ne_ok flt st hash h
  · unfold looseDecode
    split
    · simp
    · split
      · simp
      · exact map_ne_ok _ _ (regionDecode_ne_ok cs _ _ _ _)

theorem casOpenObject_ne_ok (cs : Codecs) (flt : Faults) (st : Store) (hash : Bytes) :
    casOpenObject cs flt st hash ≠ .error .ok := by
  unfold casOpenObject
  split
  · simp
  · split
    · exact looseOpen_ne_ok cs flt st hash
    · split
      · exact looseOpen_ne_ok cs flt st hash
      · exact casPackLookup_ne_ok cs _ _ hash

theorem textLoad_ne_ok (noMem : Bool) (fuel : Nat) (p : Bytes) (dir : Dir) :
    textLoad noMem fuel p dir ≠ .error .ok := by
  induction fuel generalizing p dir with
  | zero => simp [textLoad]
  | succ fuel ih =>
    unfold textLoad
    repeat' split
    all_goals first | exact ih _ _ | simp

theorem parseRecords_ne_ok (noMem : Bool) (fuel : Nat) (region : Bytes) (dir : Dir) :
    parseRecords noMem fuel region dir ≠ .error .ok := by
  induction fuel generalizing region dir with
  | zero => simp [parseRecords]
  | succ fuel ih =>
    unfold parseRecords
    simp only []
    repeat' split
    all_goals first | exact ih _ _ | simp

/-- A tree that fails to load says why. -/
theorem casTreeLoad_ne_ok (cs : Codecs) (flt : Faults) (st : Store) (hash : Bytes) :
    casTreeLoad cs flt st hash ≠ .error .ok := by
  unfold casTreeLoad
  split
  · next rc h =>
    rintro heq
    obtain rfl := Except.error.inj heq
    exact casOpenObject_ne_ok cs flt st hash h
  · split
    · unfold treeTextLoad
      split
      · simp
      · split
        · simp
        · exact textLoad_ne_ok _ _ _ _
    · split
      · unfold htreeParseDir
        split
        · simp
        · split
          · simp
          · exact parseRecords_ne_ok _ _ _ _
      · simp
/-! ## The walk behind the mark -/

section
variable (cs : Codecs) (flt : Faults) (st : Store)

/-- What a tree mentions; an object that cannot be loaded as one mentions nothing. -/
def treeKids (hash : Bytes) : List (Bytes × Bool) :=
  match casTreeLoad cs flt st hash with
  | .ok dir => dir.map fun e => (e.hash, e.isDir)
  | .error _ => []

/-- A load the mark goes on after: it gives a directory, or the object is missing. -/
def LoadsOrMissing (hash : Bytes) : Prop := ∀ rc, casTreeLoad cs flt st hash = .error rc → rc = .enotfound

/-- What the mark needs of the part of its walk from `seen` to `out`. -/
structure MarkFine (seen out : List (Bytes × Bool)) : Prop where
  grows : ∀ m, seen.length ≤ m → m < out.length → GrowsAt m → flt (.growSet m) = false
  loads : ∀ n, (n, true) ∈ out → (n, true) ∉ seen → LoadsOrMissing cs flt st n

theorem MarkFine.refl (seen : List (Bytes × Bool)) : MarkFine cs flt st seen seen where
  grows := by
    intro m h1 h2
    omega
  loads := fun _ h hn => absurd h hn

/-- A part is fine when its two halves are. -/
theorem markFine_split (a b c : List (Bytes × Bool)) (hab : a ⊆ b) (hbc : b ⊆ c) (hl : a.length ≤ b.length)
    (hl' : b.length ≤ c.length) : MarkFine cs flt st a c ↔ MarkFine cs flt st a b ∧ MarkFine cs flt st b c := by
  constructor
  · intro h
    refine ⟨⟨fun m h1 h2 => h.grows m h1 (by omega), fun n hn => h.loads n (hbc hn)⟩, ?_⟩
    exact ⟨fun m h1 h2 => h.grows m (by omega) h2, fun n hn hb => h.loads n hn fun ha => hb (hab ha)⟩
  · rintro ⟨h1, h2⟩
    constructor
    · intro m hm hm'
      rcases Nat.lt_or_ge m b.length with hlt | hge
      · exact h1.grows m hm hlt
      · exact h2.grows m hge hm'
    · intro n hn ha
      by_cases hb : (n, true) ∈ b
      · exact h1.loads n hb ha
      · exact h2.loads n hn hb

/-- One more mention is fine when there is room for it and it can be gone into, if it is to be. -/
theorem markFine_add (seen : List (Bytes × Bool)) (e : Bytes × Bool)
    (hgrow : GrowsAt seen.length → flt (.growSet seen.length) = false)
    (hload : e.2 = true → LoadsOrMissing cs flt st e.1) : MarkFine cs flt st seen (seen ++ [e]) := by
  constructor
  · intro m h1 h2 hg
    obtain rfl : m = seen.length := by
      rw [List.length_append, List.length_singleton] at h2
      omega
    exact hgrow hg
  · intro n hn hs
    rcases List.mem_append.mp hn with hn | hn
    · exact absurd hn hs
    · obtain rfl : (n, true) = e := List.mem_singleton.mp hn
      exact hload rfl

/-- A set that stands where the walk does. -/
structure StandsAt (hs : HashSet) (seen : List (Bytes × Bool)) : Prop where
  hashes : hs.hashes = met seen
  doubling : Doubling hs.hashes.length hs.cap

theorem standsAt_init : StandsAt HashSet.init [] := ⟨rfl, Doubling.empty⟩

theorem StandsAt.length {hs : HashSet} {seen : List (Bytes × Bool)} (h : StandsAt hs seen) :
    hs.hashes.length = seen.length := by
  rw [h.hashes, met, List.length_map]

theorem StandsAt.contains {hs : HashSet} {seen : List (Bytes × Bool)} (h : StandsAt hs seen) (hash : Bytes) :
    hashSetContains hs hash = true ↔ hash ∈ met seen := by
  unfold hashSetContains
  rw [decide_eq_true_iff, h.hashes]

/-- A new hash goes in, unless the set is full and cannot grow. -/
theorem hashSetAdd_spec (hs : HashSet) (seen : List (Bytes × Bool)) (h : StandsAt hs seen) (e : Bytes × Bool)
    (hn : e.1 ∉ met seen) :
    (∃ hs', hashSetAdd flt hs e.1 = .ok hs' ∧ StandsAt hs' (seen ++ [e]) ∧
      (GrowsAt seen.length → flt (.growSet seen.length) = false)) ∨
    (hashSetAdd flt hs e.1 = .error .enomem ∧ GrowsAt seen.length ∧ flt (.growSet seen.length) = true) := by
  have hno : ¬ hashSetContains hs e.1 = true := fun hc => hn ((h.contains e.1).mp hc)
  have hlen := h.length
  have hmet : hs.hashes ++ [e.1] = met (seen ++ [e]) := by
    rw [met_append, h.hashes]
    rfl
  have hone : (hs.hashes ++ [e.1]).length = hs.hashes.length + 1 := by simp
  unfold hashSetAdd
  rw [if_neg hno]
  by_cases hf : hs.hashes.length ≥ hs.cap
  · have hg := h.doubling.full_iff.mp hf
    rw [if_pos hf, hlen]
    cases hfault : flt (.growSet seen.length) with
    | true => exact .inr ⟨rfl, hlen ▸ hg, rfl⟩
    | false =>
      refine .inl ⟨_, rfl, ⟨hmet, ?_⟩, fun _ => rfl⟩
      rw [hone]
      exact h.doubling.grow hf
  · rw [if_neg hf]
    refine .inl ⟨_, rfl, ⟨hmet, ?_⟩, ?_⟩
    · rw [hone]
      exact h.doubling.push hf
    · intro hg
      rw [← hlen] at hg
      exact absurd (h.doubling.full_iff.mpr hg) hf

/-- The outcome of a part of the mark, against the same part of the walk. -/
def MarksAs (r : Except Status HashSet) (seen out : List (Bytes × Bool)) : Prop :=
  match r with
  | .ok hs => StandsAt hs out ∧ MarkFine cs flt st seen out
  | .error rc => rc ≠ .ok ∧ ¬ MarkFine cs flt st seen out

section
variable {cs flt st} {a b c : List (Bytes × Bool)} (hab : a ⊆ b) (hbc : b ⊆ c) (hl : a.length ≤ b.length)
  (hl' : b.length ≤ c.length)
include hab hbc hl hl'

/-- A part that fails is all there is. -/
theorem MarksAs.stopped {rc : Status} (h : MarksAs cs flt st (.error rc) a b) : MarksAs cs flt st (.error rc) a c :=
  ⟨h.1, fun hfine => h.2 ((markFine_split cs flt st a b c hab hbc hl hl').mp hfine).1⟩

/-- After a part that is fine the outcome is that of the rest. -/
theorem MarksAs.after {r : Except Status HashSet} (hfirst : MarkFine cs flt st a b) (h : MarksAs cs flt st r b c) :
    MarksAs cs flt st r a c := by
  have hsplit := markFine_split cs flt st a b c hab hbc hl hl'
  cases r with
  | error rc => exact ⟨h.1, fun hfine => h.2 (hsplit.mp hfine).2⟩
  | ok hs => exact ⟨h.1, hsplit.mpr ⟨hfirst, h.2⟩⟩

end

/-- One mention, as `mark_tree` takes it. -/
def markMention (fuel : Nat) (hs : HashSet) (e : Bytes × Bool) : Except Status HashSet :=
  if e.2 then markTree cs flt st fuel hs e.1 else hashSetAdd flt hs e.1

/-- A mention of what has been met changes nothing, in the set as in the walk. -/
theorem markMention_met (fuel : Nat) (hs : HashSet) (seen : List (Bytes × Bool)) (e : Bytes × Bool)
    (h : StandsAt hs seen) (hin : e.1 ∈ met seen) :
    MarksAs cs flt st (markMention cs flt st fuel hs e) seen (visit (treeKids cs flt st) fuel seen e) := by
  have hc := (h.contains e.1).mpr hin
  have hvisit : visit (treeKids cs flt st) fuel seen e = seen := by
    cases fuel <;> simp [visit, hin]
  have hmark : markMention cs flt st fuel hs e = .ok hs := by
    unfold markMention
    cases fuel <;> simp [markTree, hashSetAdd, hc]
  rw [hvisit, hmark]
  exact ⟨h, MarkFine.refl cs flt st seen⟩

theorem foldlM_entries (fuel : Nat) (dir : Dir) (hs : HashSet) :
    dir.foldlM (fun hs e => if e.isDir then markTree cs flt st fuel hs e.hash else hashSetAdd flt hs e.hash) hs =
      (dir.map fun e => (e.hash, e.isDir)).foldlM (markMention cs flt st fuel) hs := by
  rw [List.foldlM_map]
  rfl

variable {Q : Bytes → Prop} {bound : Nat}

/-- Mentions taken one after another, each of which is marked as it is visited. -/
theorem marks_spec (fuel least : Nat) (es : List (Bytes × Bool))
    (hm : ∀ hs seen e, StandsAt hs seen → Within Q seen → Q e.1 → least ≤ seen.length →
      MarksAs cs flt st (markMention cs flt st fuel hs e) seen (visit (treeKids cs flt st) fuel seen e))
    (hv : ∀ seen e, Within Q seen → Q e.1 → least ≤ seen.length →
      Within Q (visit (treeKids cs flt st) fuel seen e))
    (hs : HashSet) (seen : List (Bytes × Bool)) (h : StandsAt hs seen) (hw : Within Q seen)
    (he : ∀ e ∈ es, Q e.1) (hl : least ≤ seen.length) :
    MarksAs cs flt st (es.foldlM (markMention cs flt st fuel) hs) seen
      (es.foldl (visit (treeKids cs flt st) fuel) seen) := by
  induction es generalizing hs seen with
  | nil => exact ⟨h, MarkFine.refl cs flt st seen⟩
  | cons e es ih =>
    have hlen := visit_length_le (treeKids cs flt st) fuel seen e
    have hext := visit_extends (treeKids cs flt st) fuel seen e
    have hexts := visits_extend (treeKids cs flt st) fuel (visit (treeKids cs flt st) fuel seen e) es
    have hlens := visits_length_le (treeKids cs flt st) fuel (visit (treeKids cs flt st) fuel seen e) es
    have hone := hm hs seen e h hw (he e (by simp)) hl
    rw [List.foldlM_cons, List.foldl_cons]
    cases hr : markMention cs flt st fuel hs e with
    | error rc =>
      rw [hr] at hone
      exact hone.stopped hext hexts hlen hlens
    | ok hs' =>
      rw [hr] at hone
      have hrest := ih hs' _ hone.1 (hv seen e hw (he e (by simp)) hl) (fun k hk => he k (by simp [hk])) (by omega)
      exact hrest.after hext hexts hlen hlens hone.2

section
variable {hs hs' : HashSet} {seen : List (Bytes × Bool)} {n : Bytes} (hin : n ∉ met seen)
  (hno : ¬ hashSetContains hs n = true)
include hin hno

/-- A tree that cannot be loaded is marked; the mark stops there unless the tree is missing. -/
theorem markTree_unloaded (fuel : Nat) (hok : hashSetAdd flt hs n = .ok hs')
    (hstands : StandsAt hs' (seen ++ [(n, true)]))
    (hgrow : GrowsAt seen.length → flt (.growSet seen.length) = false) {rc : Status}
    (hload : casTreeLoad cs flt st n = .error rc) :
    MarksAs cs flt st (markTree cs flt st (fuel + 1) hs n) seen (seen ++ [(n, true)]) := by
  unfold markTree
  rw [if_neg hno, hok, hload]
  by_cases hrc : rc = .enotfound
  · rw [hrc]
    refine ⟨hstands, markFine_add cs flt st seen (n, true) hgrow fun _ rc' hl => ?_⟩
    rw [hload, hrc] at hl
    exact (Except.error.inj hl).symm
  · have hstop : ¬ MarkFine cs flt st seen (seen ++ [(n, true)]) := by
      intro hfine
      refine hrc (hfine.loads n (by simp) ?_ rc hload)
      exact fun hm => hin ((mem_met seen n).mpr (.inl hm))
    have hok : rc ≠ .ok := by
      rintro rfl
      exact casTreeLoad_ne_ok cs flt st n hload
    cases rc <;> first | exact ⟨hok, hstop⟩ | exact absurd rfl hrc

/-- The set cannot grow, so the walk goes where the mark cannot. -/
theorem markMention_full (fuel : Nat) (b : Bool) (herr : hashSetAdd flt hs n = .error .enomem)
    (hg : GrowsAt seen.length) (hfault : flt (.growSet seen.length) = true) :
    MarksAs cs flt st (markMention cs flt st (fuel + 1) hs (n, b)) seen
      (visit (treeKids cs flt st) (fuel + 1) seen (n, b)) := by
  have hfail : markMention cs flt st (fuel + 1) hs (n, b) = .error .enomem := by
    unfold markMention
    cases b with
    | false => exact herr
    | true =>
      show markTree cs flt st (fuel + 1) hs n = .error .enomem
      unfold markTree
      rw [if_neg hno, herr]
  have hlonger : seen.length < (visit (treeKids cs flt st) (fuel + 1) seen (n, b)).length := by
    cases b with
    | false => simp [visit, hin]
    | true =>
      have := visits_length_le (treeKids cs flt st) fuel (seen ++ [(n, true)]) (treeKids cs flt st n)
      have hone : (seen ++ [(n, true)]).length = seen.length + 1 := by simp
      simp only [visit, hin, if_false, if_true]
      omega
  rw [hfail]
  refine ⟨by simp, fun hfine => ?_⟩
  rw [hfine.grows _ (Nat.le_refl _) hlonger hg] at hfault
  cases hfault

end

variable (hb : Bounded (treeKids cs flt st) Q bound)
include hb

/-- **A mention is marked as the walk visits it.** -/
theorem markMention_spec (fuel : Nat) (hs : HashSet) (seen : List (Bytes × Bool)) (e : Bytes × Bool)
    (h : StandsAt hs seen) (hw : Within Q seen) (he : Q e.1) (hf : bound ≤ seen.length + fuel) :
    MarksAs cs flt st (markMention cs flt st fuel hs e) seen (visit (treeKids cs flt st) fuel seen e) := by
  induction fuel generalizing hs seen e with
  | zero =>
    by_cases hin : e.1 ∈ met seen
    · exact markMention_met cs flt st 0 hs seen e h hin
    · -- the bound leaves no room for a new node
      have := (hw.add e he hin).length_le (treeKids cs flt st) hb
      rw [List.length_append, List.length_singleton] at this
      omega
  | succ fuel ih =>
    by_cases hin : e.1 ∈ met seen
    · exact markMention_met cs flt st (fuel + 1) hs seen e h hin
    · obtain ⟨n, b⟩ := e
      have hno : ¬ hashSetContains hs n = true := fun hc => hin ((h.contains n).mp hc)
      have hone : (seen ++ [(n, b)]).length = seen.length + 1 := by simp
      rcases hashSetAdd_spec flt hs seen h (n, b) hin with ⟨hs', hok, hstands, hgrow⟩ | ⟨herr, hg, hfault⟩
      · cases b with
        | false =>
          have hvisit : visit (treeKids cs flt st) (fuel + 1) seen (n, false) = seen ++ [(n, false)] := by
            simp [visit, hin]
          rw [hvisit]
          show MarksAs cs flt st (hashSetAdd flt hs n) _ _
          rw [hok]
          exact ⟨hstands, markFine_add cs flt st seen (n, false) hgrow (by simp)⟩
        | true =>
          have hvisit : visit (treeKids cs flt st) (fuel + 1) seen (n, true) =
              (treeKids cs flt st n).foldl (visit (treeKids cs flt st) fuel) (seen ++ [(n, true)]) := by
            simp [visit, hin]
          have hkids := marks_spec cs flt st fuel (seen.length + 1) (treeKids cs flt st n)
            (fun hs s k h1 h2 h3 h4 => ih hs s k h1 h2 h3 (by omega))
            (fun s k h1 h2 h3 => (visit_goneInto (treeKids cs flt st) hb fuel s k h1 h2 (by omega)).1)
            hs' _ hstands (hw.add (n, true) he hin) (hb.kids n he) (by omega)
          rw [hvisit]
          show MarksAs cs flt st (markTree cs flt st (fuel + 1) hs n) _ _
          cases hload : casTreeLoad cs flt st n with
          | error rc =>
            have hnone : treeKids cs flt st n = [] := by
              unfold treeKids
              rw [hload]
            rw [hnone]
            exact markTree_unloaded cs flt st hin hno fuel hok hstands hgrow hload
          | ok dir =>
            have hdir : treeKids cs flt st n = dir.map fun e => (e.hash, e.isDir) := by
              unfold treeKids
              rw [hload]
            have hfirst : MarkFine cs flt st seen (seen ++ [(n, true)]) :=
              markFine_add cs flt st seen (n, true) hgrow fun _ rc hl => by
                rw [hload] at hl
                cases hl
            unfold markTree
            rw [if_neg hno, hok, hload]
            simp only [foldlM_entries, ← hdir]
            exact hkids.after (List.subset_append_left _ _) (visits_extend (treeKids cs flt st) fuel _ _) (by omega)
              (visits_length_le (treeKids cs flt st) fuel _ _) hfirst
      · exact markMention_full cs flt st hin hno fuel b herr hg hfault

end
end Smolvfs
