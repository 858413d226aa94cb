import Mathlib.Logic.Relation
import Smolvfs.GcKeep

/-!
# A collection beside a writer

A writer puts objects and then commits a root whose whole closure it has put; a
collector marks ref by ref, takes its cutoff, and tests and removes the loose
objects one by one.  Their steps interleave as they may.

`race_safe`: every object reachable from the committed root is present in every
state of a run whose steps are `Careful`.  What that asks beyond the grace period
is that the cutoff is positive, that an object the writer found stored already is
packed, marked or young, and that a cutoff taken after the commit is not later than
the first put.  `race_loses_shared` is a run without it.
-/

namespace Smolvfs

open Octets Walk

/-! ## The parties -/

/-- Where the collector is: the refs it has still to hand to `mark_ref`, then the names listed when the
sweep began that it has still to visit, and the one that it has tested and is about to remove. -/
inductive Collector
  | idle
  | marking (left : List Bytes) (reachable : HashSet)
  | sweeping (left : List Bytes) (reachable : HashSet) (cutoff : Int) (pending : Option Bytes)
  | done

/-- The depot, the clock, the writer and the collector.  `puts` is what the writer has put and `shared` which
of it was stored already; `first` is the time of the first put and `root` what was committed. -/
structure World where
  store : Store
  refs : Refs
  now : Int
  puts : List (Bytes × Object)
  shared : List Bytes
  first : Option Int
  root : Option Bytes
  gc : Collector

/-- Before either party has begun. -/
def World.start (store : Store) (refs : Refs) (now : Int) : World := ⟨store, refs, now, [], [], none, none, .idle⟩

def World.tree (w : World) : CasTree := ⟨w.store, w.refs⟩

/-- What an object mentions when it is a tree. -/
def objectKids (obj : Object) : List (Bytes × Bool) :=
  let listed := if obj.1 = tTree then treeTextLoad false obj.2 else htreeParseDir false obj.2
  match listed with
  | .ok dir => if obj.1 = tTree ∨ obj.1 = tHtree then dir.map fun e => (e.hash, e.isDir) else []
  | .error _ => []

/-- What the object put at a hash mentions. -/
def putKids (puts : List (Bytes × Object)) (hash : Bytes) : List (Bytes × Bool) :=
  match puts.find? fun p => decide (p.1 = hash) with
  | none => []
  | some p => objectKids p.2

/-- The hash is reachable from a root in what was put. -/
def Closure (puts : List (Bytes × Object)) (root hash : Bytes) : Prop :=
  ∃ b, Reach (putKids puts) (fun _ => True) [root] (hash, b)

/-- The hashes that were put. -/
def World.put (w : World) : List Bytes := w.puts.map Prod.fst

/-- The writer is, or was, less than `grace` seconds from its first put. -/
def World.InGrace (grace : Int) (w : World) : Prop := ∀ t ∈ w.first, w.now < t + grace

/-! ## Steps -/

/-- What the writer, the collector or the clock does. -/
inductive Act
  | tick (d : Int)
  | put (type : CStr) (data : Bytes)
  | commit (name root comment : Bytes) (timeNs : Int)
  | gcStart
  | gcMark (name : Bytes)
  | gcSweep
  | gcTest (hash : Bytes)
  | gcRemove
  | gcDone

/-- The writer's state after a put that returned `hash`. -/
def World.afterPut (w : World) (obj : Object) (st : Store) (hash : Bytes) : World :=
  { w with
    store := st
    puts := (hash, obj) :: w.puts
    shared := if Fresh w.store hash then w.shared else hash :: w.shared
    first := some (w.first.getD w.now) }

/-- The steps.  A commit is of a root whose closure was put, in time; `mark_ref` takes any ref the directory
has, and the marking ends when those it had at the start are done; `sweep_visitor` takes any name that is
listed, and first tests and then removes it. -/
inductive Step (cs : Codecs) (grace : Int) : World → Act → World → Prop
  | tick (w : World) (d : Int) (hd : 0 ≤ d) : Step cs grace w (.tick d) { w with now := w.now + d }
  | put (w : World) (type : CStr) (data hash : Bytes) (st : Store) (hc : w.root = none)
    (hp : casPutObject noFaults w.store type data w.now = .ok (st, hash)) :
    Step cs grace w (.put type data) (w.afterPut (type, data) st hash)
  | commit (w : World) (name root comment : Bytes) (timeNs : Int) (refs : Refs) (hc : w.root = none)
    (hput : ∀ hash, Closure w.puts root hash → hash ∈ w.put) (hin : w.InGrace grace)
    (hr : casTreeRefCommit w.refs name root comment w.now timeNs = .ok refs) :
    Step cs grace w (.commit name root comment timeNs) { w with refs := refs, root := some root }
  | gcStart (w : World) (hg : w.gc = .idle) :
    Step cs grace w .gcStart { w with gc := .marking (casTreeRefForeach noFaults w.refs) HashSet.init }
  | gcMark (w : World) (left : List Bytes) (reachable reachable' : HashSet) (name : Bytes)
    (hg : w.gc = .marking left reachable) (hn : name ∈ casTreeRefForeach noFaults w.refs)
    (hm : markRef cs noFaults ⟨w.store, w.refs⟩ reachable name = .ok reachable') :
    Step cs grace w (.gcMark name) { w with gc := .marking (left.filter (· ≠ name)) reachable' }
  | gcSweep (w : World) (reachable : HashSet) (hg : w.gc = .marking [] reachable) :
    Step cs grace w .gcSweep
      { w with gc := .sweeping (casForeach noFaults w.store).1 reachable (gcCutoff grace w.now) none }
  | gcTest (w : World) (left : List Bytes) (reachable : HashSet) (cutoff : Int) (hash : Bytes)
    (hg : w.gc = .sweeping left reachable cutoff none) (hl : hash ∈ (casForeach noFaults w.store).1) :
    Step cs grace w (.gcTest hash)
      { w with
        gc := .sweeping (left.filter (· ≠ hash)) reachable cutoff
          (if sweepSpares noFaults reachable cutoff w.store hash then none else some hash) }
  | gcRemove (w : World) (left : List Bytes) (reachable : HashSet) (cutoff : Int) (hash : Bytes)
    (hg : w.gc = .sweeping left reachable cutoff (some hash)) :
    Step cs grace w .gcRemove
      { w with store := (casRemove noFaults w.store hash).2, gc := .sweeping left reachable cutoff none }
  | gcDone (w : World) (reachable : HashSet) (cutoff : Int) (hg : w.gc = .sweeping [] reachable cutoff none) :
    Step cs grace w .gcDone { w with gc := .done }

/-! ## What is asked of the steps -/

/-- The hashes the writer needs: what it has put, and once it has committed what the root reaches. -/
def World.Needs (w : World) (hash : Bytes) : Prop :=
  match w.root with
  | none => hash ∈ w.put
  | some root => Closure w.puts root hash

/-- A sweep will let the object be: it is packed, or loose and marked or not older than a positive cutoff. -/
def Spared (st : Store) (reachable : HashSet) (cutoff : Int) (hash : Bytes) : Prop :=
  st.packed hash = true ∨ st.hasLoose hash = true ∧ sweepSpares noFaults reachable cutoff st hash = true

/-- The writer has committed, or can still do so in time. -/
def World.Live (grace : Int) (w : World) : Prop := w.root.isSome = true ∨ w.InGrace grace

/-- The cutoff is positive, and not later than the first put. -/
def World.CutInTime (w : World) (cutoff : Int) : Prop := 0 < cutoff ∧ ∀ t ∈ w.first, cutoff ≤ t

/-- What is asked of a step while the writer may commit or has done so.  Where the sweep begins: before the
commit, that the cutoff is positive; and of the objects needed, that those which were stored already are
spared, and all of them when the cutoff is not in time.  Of an object that is put during the sweep and is
stored already: that it is spared. -/
def Careful (grace : Int) (w : World) (a : Act) : Prop :=
  w.Live grace →
    match a, w.gc with
    | .gcSweep, .marking _ reachable =>
      (w.root = none → 0 < gcCutoff grace w.now) ∧
        ∀ hash, w.Needs hash → hash ∈ w.shared ∨ ¬ w.CutInTime (gcCutoff grace w.now) →
          Spared w.store reachable (gcCutoff grace w.now) hash
    | .put type data, .sweeping _ reachable cutoff _ =>
      ∀ hash, casHashObject type data = .ok hash → ¬ Fresh w.store hash → Spared w.store reachable cutoff hash
    | _, _ => True

/-- A run all of whose steps are careful. -/
def CarefulRun (cs : Codecs) (grace : Int) : World → World → Prop :=
  Relation.ReflTransGen fun w w' => ∃ a, Step cs grace w a w' ∧ Careful grace w a

/-- Every object reachable from the committed root is present. -/
def World.Safe (w : World) : Prop :=
  ∀ root, w.root = some root → ∀ hash, Closure w.puts root hash → casExists w.store hash = true

/-! ## The invariant -/

/-- What is known of an object the writer needs: before the sweep it was stored already or is not older than
the first put, during the sweep it is spared, and afterwards it is there. -/
def World.Held (w : World) (hash : Bytes) : Prop :=
  match w.gc with
  | .sweeping _ reachable cutoff _ => Spared w.store reachable cutoff hash
  | .done => w.store.packed hash = true ∨ w.store.hasLoose hash = true
  | _ => w.store.packed hash = true ∨
      ∃ f, w.store.loose.lookup hash = some f ∧ (hash ∈ w.shared ∨ ∀ t ∈ w.first, t ≤ f.mtime)

structure World.Inv (grace : Int) (w : World) : Prop where
  clock : ∀ t ∈ w.first, t ≤ w.now
  begun : w.first = none → w.puts = []
  valid : ∀ hash ∈ w.put, validHash hash = true
  closed : ∀ root, w.root = some root → ∀ hash, Closure w.puts root hash → hash ∈ w.put
  held : w.Live grace → ∀ hash, w.Needs hash → w.Held hash
  cutoff : w.Live grace → w.root = none → ∀ left reachable cutoff pending,
    w.gc = .sweeping left reachable cutoff pending → 0 < cutoff ∧ cutoff ≤ w.now
  pending : ∀ left reachable cutoff hash, w.gc = .sweeping left reachable cutoff (some hash) →
    w.store.hasLoose hash = true ∧ sweepSpares noFaults reachable cutoff w.store hash = false

theorem inv_start (grace : Int) (st : Store) (refs : Refs) (now : Int) : (World.start st refs now).Inv grace where
  clock := by simp [World.start]
  begun := fun _ => rfl
  valid := by simp [World.start, World.put]
  closed := by simp [World.start]
  held := by simp [World.start, World.Needs, World.put]
  cutoff := by simp [World.start]
  pending := by simp [World.start]

section
variable (st st' : Store) (hash : Bytes)

theorem hasLoose_congr (hl : st'.loose.lookup hash = st.loose.lookup hash) :
    st'.hasLoose hash = st.hasLoose hash := by
  unfold Store.hasLoose
  rw [hl]

/-- A store with the same pack and the same file under the hash spares it alike. -/
theorem spared_congr (reachable : HashSet) (cutoff : Int) (hp : st'.pack = st.pack)
    (hl : st'.loose.lookup hash = st.loose.lookup hash) (h : Spared st reachable cutoff hash) :
    Spared st' reachable cutoff hash := by
  unfold Spared Store.packed at *
  rw [hp, hasLoose_congr st st' hash hl, sweepSpares_congr noFaults reachable cutoff st st' hash hl]
  exact h

/-- A file that is not older than a positive cutoff is spared. -/
theorem spared_of_young (reachable : HashSet) (cutoff : Int) (f : LooseFile) (hv : validHash hash = true)
    (hl : st.loose.lookup hash = some f) (hpos : 0 < cutoff) (hm : cutoff ≤ f.mtime) :
    Spared st reachable cutoff hash := by
  refine .inr ⟨by unfold Store.hasLoose; rw [hl]; rfl, ?_⟩
  unfold sweepSpares casObjectMtime
  rw [if_neg (by simp [hv]), hl]
  simp [noFaults, hpos, hm]

/-- A put stores a new object with the time of the put, or finds it stored and does nothing. -/
theorem casPutObject_cases (type : CStr) (data : Bytes) (now : Int)
    (h : casPutObject noFaults st type data now = .ok (st', hash)) :
    casHashObject type data = .ok hash ∧ validHash hash = true ∧
      ((Fresh st hash ∧ ∃ data', st' = st.setLoose hash ⟨data', now⟩) ∨ (¬ Fresh st hash ∧ st' = st)) := by
  by_cases hf : Fresh st hash
  · obtain ⟨hdr, hform, rfl, hst⟩ := casPutObject_fresh noFaults st st' type data hash now h hf
    refine ⟨?_, validHash_digest2 hdr data, .inl ⟨hf, _, hst⟩⟩
    unfold casHashObject
    rw [hform]
  · unfold casPutObject at h
    cases hform : formatHeader type data.length with
    | none => simp [hform] at h
    | some hdr =>
      simp only [hform] at h
      split at h
      · cases h
      · split at h
        · obtain ⟨rfl, rfl⟩ := Prod.mk.inj (Except.ok.inj h)
          refine ⟨?_, validHash_digest2 hdr data, .inr ⟨hf, rfl⟩⟩
          unfold casHashObject
          rw [hform]
        · next hno =>
          -- the object is not there, so it is fresh at its address
          rw [storeFile_noFaults] at h
          obtain ⟨-, rfl⟩ := Prod.mk.inj (Except.ok.inj h)
          refine absurd ?_ hf
          simpa [Fresh] using hno

end

/-- Whoever may commit after a step could do so before it. -/
theorem Step.live {cs : Codecs} {grace : Int} {w w' : World} {a : Act} (h : Step cs grace w a w')
    (hl : w'.Live grace) : w.Live grace := by
  cases h with
  | tick d hd =>
    rcases hl with hl | hl
    · exact .inl hl
    · refine .inr fun t ht => ?_
      have := hl t ht
      simp only [] at this
      omega
  | put type data hash st hc hp =>
    refine .inr fun t ht => ?_
    rcases hl with hl | hl
    · have : w.root.isSome = true := hl
      rw [hc] at this
      cases this
    · refine hl t ?_
      show some (w.first.getD w.now) = some t
      rw [ht]
      rfl
  | commit name root comment timeNs refs hc hput hin hr => exact .inr hin
  | gcStart hg => exact hl
  | gcMark left reachable reachable' name hg hn hm => exact hl
  | gcSweep reachable hg => exact hl
  | gcTest left reachable cutoff hash hg hl' => exact hl
  | gcRemove left reachable cutoff hash hg => exact hl
  | gcDone reachable cutoff hg => exact hl

/-! ## Each step keeps it -/

theorem World.Held.stored {w : World} {hash : Bytes} (h : w.Held hash) : ¬ Fresh w.store hash := by
  rintro ⟨hl, hp⟩
  have hstored : w.store.packed hash = true ∨ w.store.hasLoose hash = true := by
    unfold World.Held at h
    split at h
    · rcases h with h | h
      · exact .inl h
      · exact .inr h.1
    · exact h
    · rcases h with h | ⟨f, h, -⟩
      · exact .inl h
      · exact .inr (by unfold Store.hasLoose; rw [h]; rfl)
  rcases hstored with h | h
  · rw [hp] at h
    cases h
  · rw [hl] at h
    cases h

/-- What is held stays so while its file, the pack, the first put and the collector are as they were. -/
theorem World.Held.congr {w w' : World} {hash : Bytes} (h : w.Held hash) (hg : w'.gc = w.gc)
    (hp : w'.store.pack = w.store.pack) (hl : w'.store.loose.lookup hash = w.store.loose.lookup hash)
    (hs : w.shared ⊆ w'.shared) (hf : w'.first = w.first) : w'.Held hash := by
  unfold World.Held at h ⊢
  rw [hg]
  cases hgc : w.gc with
  | sweeping left reachable cutoff pending =>
    rw [hgc] at h
    exact spared_congr w.store w'.store hash reachable cutoff hp hl h
  | done =>
    rw [hgc] at h
    unfold Store.packed at h ⊢
    rw [hp, hasLoose_congr w.store w'.store hash hl]
    exact h
  | _ =>
    rw [hgc] at h
    unfold Store.packed at h ⊢
    simp only [] at h ⊢
    rw [hp, hl, hf]
    rcases h with h | ⟨f, h1, h2⟩
    · exact .inl h
    · refine .inr ⟨f, h1, ?_⟩
      rcases h2 with h2 | h2
      · exact .inl (hs h2)
      · exact .inr h2

section
variable {cs : Codecs} {grace : Int} {w : World}

/-- What a put leaves of an object held before, and of the object put. -/
theorem held_put (type : CStr) (data hash : Bytes) (st : Store) (hi : w.Inv grace) (hc : w.root = none)
    (hp : casPutObject noFaults w.store type data w.now = .ok (st, hash)) (hcare : Careful grace w (.put type data))
    (hlive : w.Live grace) (other : Bytes) (ho : other ∈ (w.afterPut (type, data) st hash).put) :
    (w.afterPut (type, data) st hash).Held other := by
  obtain ⟨haddr, hv, hcases⟩ := casPutObject_cases w.store st hash type data w.now hp
  have hshared : w.shared ⊆ (w.afterPut (type, data) st hash).shared := by
    show w.shared ⊆ if Fresh w.store hash then w.shared else hash :: w.shared
    split
    · exact List.Subset.refl _
    · exact List.subset_cons_self _ _
  by_cases hold : other ∈ w.put
  · have hheld := hi.held hlive other (by unfold World.Needs; rw [hc]; exact hold)
    have hfirst : (w.afterPut (type, data) st hash).first = w.first := by
      show some (w.first.getD w.now) = w.first
      cases hf : w.first with
      | some t => rfl
      | none =>
        unfold World.put at hold
        rw [hi.begun hf] at hold
        cases hold
    rcases hcases with ⟨hfresh, data', rfl⟩ | ⟨-, rfl⟩
    · have hne : other ≠ hash := by
        rintro rfl
        exact hheld.stored hfresh
      exact hheld.congr rfl rfl (setLoose_lookup_ne w.store hash other _ hne) hshared hfirst
    · exact hheld.congr rfl rfl rfl hshared hfirst
  · obtain rfl : other = hash := by
      rcases List.mem_cons.mp ho with h | h
      · exact h
      · exact absurd h hold
    unfold World.Held
    show match w.gc with
      | .sweeping _ reachable cutoff _ => Spared st reachable cutoff other
      | .done => st.packed other = true ∨ st.hasLoose other = true
      | _ => st.packed other = true ∨ ∃ f, st.loose.lookup other = some f ∧
          (other ∈ (w.afterPut (type, data) st other).shared ∨ ∀ t ∈ some (w.first.getD w.now), t ≤ f.mtime)
    rcases hcases with ⟨hfresh, data', rfl⟩ | ⟨hstored, rfl⟩
    · -- a new file has the time of the put
      have hl := setLoose_lookup_self w.store other ⟨data', w.now⟩
      cases hg : w.gc with
      | sweeping left reachable cutoff pending =>
        obtain ⟨hpos, hle⟩ := hi.cutoff hlive hc left reachable cutoff pending hg
        exact spared_of_young _ other reachable cutoff _ hv hl hpos hle
      | done => exact .inr (by unfold Store.hasLoose; rw [hl]; rfl)
      | _ =>
        refine .inr ⟨_, hl, .inr fun t ht => ?_⟩
        obtain rfl : w.first.getD w.now = t := Option.some.inj ht
        cases hf : w.first with
        | none => exact Int.le_refl _
        | some t => exact hi.clock t hf
    · have hthere : w.store.packed other = true ∨ w.store.hasLoose other = true := by
        unfold Fresh at hstored
        cases hpk : w.store.packed other <;> cases hls : w.store.hasLoose other <;> simp_all
      cases hg : w.gc with
      | sweeping left reachable cutoff pending =>
        have := hcare hlive
        rw [hg] at this
        exact this other haddr hstored
      | done => exact hthere
      | _ =>
        rcases hthere with h | h
        · exact .inl h
        · obtain ⟨f, hf⟩ := Option.isSome_iff_exists.mp h
          refine .inr ⟨f, hf, .inl ?_⟩
          show other ∈ if Fresh w.store other then w.shared else other :: w.shared
          rw [if_neg hstored]
          exact List.mem_cons_self

theorem inv_put (type : CStr) (data hash : Bytes) (st : Store) (hi : w.Inv grace) (hc : w.root = none)
    (hp : casPutObject noFaults w.store type data w.now = .ok (st, hash)) (hcare : Careful grace w (.put type data))
    (hlive : (w.afterPut (type, data) st hash).Live grace → w.Live grace) :
    (w.afterPut (type, data) st hash).Inv grace where
  clock := by
    intro t ht
    obtain rfl : w.first.getD w.now = t := Option.some.inj ht
    show w.first.getD w.now ≤ w.now
    cases hf : w.first with
    | none => exact Int.le_refl _
    | some t => exact hi.clock t hf
  begun := by simp [World.afterPut]
  valid := by
    intro other ho
    rcases List.mem_cons.mp ho with rfl | ho
    · exact (casPutObject_cases w.store st _ type data w.now hp).2.1
    · exact hi.valid other ho
  closed := by
    intro root hr
    have : w.root = some root := hr
    rw [hc] at this
    cases this
  held := by
    intro hl other hn
    refine held_put type data hash st hi hc hp hcare (hlive hl) other ?_
    unfold World.Needs at hn
    rw [show (w.afterPut (type, data) st hash).root = none from hc] at hn
    exact hn
  cutoff := fun hl hr => hi.cutoff (hlive hl) hr
  pending := by
    intro left reachable cutoff p hg
    obtain ⟨hfile, hs⟩ := hi.pending left reachable cutoff p hg
    rcases (casPutObject_cases w.store st hash type data w.now hp).2.2 with ⟨hfresh, data', rfl⟩ | ⟨-, rfl⟩
    · have hne : p ≠ hash := by
        rintro rfl
        rw [hfresh.1] at hfile
        cases hfile
      have hl := setLoose_lookup_ne w.store hash p ⟨data', w.now⟩ hne
      exact ⟨(hasLoose_congr _ _ p hl).trans hfile, (sweepSpares_congr noFaults reachable cutoff _ _ p hl).trans hs⟩
    · exact ⟨hfile, hs⟩

theorem World.Inv.needs_put (hi : w.Inv grace) {hash : Bytes} (hn : w.Needs hash) : hash ∈ w.put := by
  unfold World.Needs at hn
  cases hr : w.root with
  | none =>
    rw [hr] at hn
    exact hn
  | some root =>
    rw [hr] at hn
    exact hi.closed root hr hash hn

/-- Where the sweep begins, what is held is spared. -/
theorem held_gcSweep (reachable : HashSet) (hi : w.Inv grace) (hg : w.gc = .marking [] reachable)
    (hcare : Careful grace w .gcSweep) (hlive : w.Live grace) (hash : Bytes) (hn : w.Needs hash) :
    Spared w.store reachable (gcCutoff grace w.now) hash := by
  have hc := hcare hlive
  rw [hg] at hc
  obtain ⟨-, hfind⟩ := hc
  by_cases hask : hash ∈ w.shared ∨ ¬ w.CutInTime (gcCutoff grace w.now)
  · exact hfind hash hn hask
  · -- a new file, and a cutoff that is not later than it
    obtain ⟨hnew, hcut⟩ := not_or.mp hask
    obtain ⟨hpos, hle⟩ := of_not_not hcut
    have hheld := hi.held hlive hash hn
    unfold World.Held at hheld
    rw [hg] at hheld
    rcases hheld with h | ⟨f, hl, h | h⟩
    · exact .inl h
    · exact absurd h hnew
    · have hput := hi.needs_put hn
      have hv := hi.valid hash hput
      cases hf : w.first with
      | none =>
        -- nothing was put, so nothing is needed
        unfold World.put at hput
        rw [hi.begun hf] at hput
        cases hput
      | some t => exact spared_of_young w.store hash reachable _ f hv hl hpos (Int.le_trans (hle t hf) (h t hf))

/-- **Every careful step keeps the invariant.** -/
theorem inv_step {w' : World} {a : Act} (hi : w.Inv grace) (hs : Step cs grace w a w') (hcare : Careful grace w a) :
    w'.Inv grace := by
  have hlive := hs.live
  cases hs with
  | tick d hd =>
    refine ⟨?_, hi.begun, hi.valid, hi.closed, fun hl => hi.held (hlive hl), ?_, hi.pending⟩
    · intro t ht
      have := hi.clock t ht
      show t ≤ w.now + d
      omega
    · intro hl hr left reachable cutoff pending hg
      obtain ⟨h1, h2⟩ := hi.cutoff (hlive hl) hr left reachable cutoff pending hg
      refine ⟨h1, ?_⟩
      show cutoff ≤ w.now + d
      omega
  | put type data hash st hc hp => exact inv_put type data hash st hi hc hp hcare hlive
  | commit name root comment timeNs refs hc hput hin hr =>
    refine ⟨hi.clock, hi.begun, hi.valid, ?_, ?_, ?_, hi.pending⟩
    · intro r heq hash hreach
      obtain rfl : root = r := Option.some.inj heq
      exact hput hash hreach
    · intro hl hash hn
      have hneed : w.Needs hash := by
        unfold World.Needs
        rw [hc]
        exact hput hash hn
      exact (hi.held (hlive hl) hash hneed).congr rfl rfl rfl (List.Subset.refl _) rfl
    · intro _ hroot
      cases hroot
  | gcStart hg =>
    refine ⟨hi.clock, hi.begun, hi.valid, hi.closed, ?_, ?_, ?_⟩
    · intro hl hash hn
      have hheld := hi.held (hlive hl) hash hn
      unfold World.Held at hheld
      rw [hg] at hheld
      exact hheld
    · intro _ _ left reachable cutoff pending h
      cases h
    · intro left reachable cutoff hash h
      cases h
  | gcMark left reachable reachable' name hg hn hm =>
    refine ⟨hi.clock, hi.begun, hi.valid, hi.closed, ?_, ?_, ?_⟩
    · intro hl hash hn
      have hheld := hi.held (hlive hl) hash hn
      unfold World.Held at hheld
      rw [hg] at hheld
      exact hheld
    · intro _ _ left reachable cutoff pending h
      cases h
    · intro left reachable cutoff hash h
      cases h
  | gcSweep reachable hg =>
    refine ⟨hi.clock, hi.begun, hi.valid, hi.closed, ?_, ?_, ?_⟩
    · intro hl hash hn
      exact held_gcSweep reachable hi hg hcare (hlive hl) hash hn
    · intro hl hr left reachable' cutoff pending h
      obtain ⟨-, -, rfl, -⟩ := Collector.sweeping.inj h
      have hc := hcare (hlive hl)
      rw [hg] at hc
      have hpos := hc.1 hr
      refine ⟨hpos, ?_⟩
      show gcCutoff grace w.now ≤ w.now
      unfold gcCutoff at hpos ⊢
      split at hpos
      · next h0 =>
        rw [if_pos h0]
        omega
      · omega
    · intro left reachable' cutoff hash h
      cases h
  | gcTest left reachable cutoff hash hg hl' =>
    refine ⟨hi.clock, hi.begun, hi.valid, hi.closed, ?_, ?_, ?_⟩
    · intro hl other hn
      have hheld := hi.held (hlive hl) other hn
      unfold World.Held at hheld
      rw [hg] at hheld
      exact hheld
    · intro hl hr left' reachable' cutoff' pending h
      obtain ⟨-, -, rfl, -⟩ := Collector.sweeping.inj h
      exact hi.cutoff (hlive hl) hr left reachable cutoff none hg
    · intro left' reachable' cutoff' p h
      obtain ⟨-, rfl, rfl, hp⟩ := Collector.sweeping.inj h
      split at hp
      · cases hp
      · next hns =>
        obtain rfl := Option.some.inj hp
        exact ⟨((mem_casForeach _ _ _).mp hl').2.1, by simpa using hns⟩
  | gcRemove left reachable cutoff hash hg =>
    obtain ⟨-, hns⟩ := hi.pending left reachable cutoff hash hg
    refine ⟨hi.clock, hi.begun, hi.valid, hi.closed, ?_, ?_, ?_⟩
    · intro hl other hn
      have hheld := hi.held (hlive hl) other hn
      unfold World.Held at hheld
      rw [hg] at hheld
      show Spared (casRemove noFaults w.store hash).2 reachable cutoff other
      rcases casRemove_lookup noFaults w.store hash other with hsame | ⟨rfl, -⟩
      · exact spared_congr w.store _ other reachable cutoff (casRemove_rest noFaults w.store hash).1 hsame hheld
      · -- what is about to be removed was not spared, so the pack has it
        rcases hheld with h | ⟨-, h⟩
        · refine .inl ?_
          unfold Store.packed at h ⊢
          rw [(casRemove_rest noFaults w.store other).1]
          exact h
        · rw [hns] at h
          cases h
    · intro hl hr left' reachable' cutoff' pending h
      obtain ⟨-, -, rfl, -⟩ := Collector.sweeping.inj h
      exact hi.cutoff (hlive hl) hr left reachable cutoff (some hash) hg
    · intro left' reachable' cutoff' p h
      cases h
  | gcDone reachable cutoff hg =>
    refine ⟨hi.clock, hi.begun, hi.valid, hi.closed, ?_, ?_, ?_⟩
    · intro hl hash hn
      have hheld := hi.held (hlive hl) hash hn
      unfold World.Held at hheld
      rw [hg] at hheld
      rcases hheld with h | ⟨h, -⟩
      · exact .inl h
      · exact .inr h
    · intro _ _ left reachable' cutoff' pending h
      cases h
    · intro left reachable' cutoff' hash h
      cases h

/-- A careful run keeps it. -/
theorem inv_run {w' : World} (hi : w.Inv grace) (hrun : CarefulRun cs grace w w') : w'.Inv grace := by
  induction hrun with
  | refl => exact hi
  | tail _ hstep ih =>
    obtain ⟨a, hs, hcare⟩ := hstep
    exact inv_step ih hs hcare

end

/-- **A collection beside a writer is safe in every careful run**: whatever the interleaving, each object
reachable from the committed root is present in every state from the commit on. -/
theorem race_safe (cs : Codecs) (grace : Int) (st : Store) (refs : Refs) (now : Int) (w : World)
    (hrun : CarefulRun cs grace (World.start st refs now) w) : w.Safe := by
  have hi := inv_run (inv_start grace st refs now) hrun
  intro root hr hash hreach
  have hn : w.Needs hash := by
    unfold World.Needs
    rw [hr]
    exact hreach
  have hheld := hi.held (.inl (by rw [hr]; rfl)) hash hn
  exact casExists_of_not_fresh w.store hash (hi.valid hash (hi.closed root hr hash hreach)) hheld.stored

/-! ## Two runs -/

/-- Any run. -/
def AnyRun (cs : Codecs) (grace : Int) : World → World → Prop :=
  Relation.ReflTransGen fun w w' => ∃ a, Step cs grace w a w'

theorem casPutObject_stored (flt : Faults) (st : Store) (type : CStr) (data hash : Bytes) (now : Int)
    (hh : casHashObject type data = .ok hash) (hs : ¬ Fresh st hash) :
    casPutObject flt st type data now = .ok (st, hash) := by
  obtain ⟨hdr, hform, rfl⟩ := casHashObject_spec type data hash hh
  obtain ⟨-, -, -, hle⟩ := formatHeader_spec type data.length hdr hform
  have h56 : ¬ hdr.length > CAS_PACK_HEADER_LEN := by
    unfold CAS_PACK_HEADER_LEN
    omega
  unfold casPutObject
  simp only [hform, if_neg h56]
  rw [if_pos]
  by_contra hno
  exact hs (by simpa [Fresh] using hno)

theorem casPutObject_new (st : Store) (type : CStr) (data hash : Bytes) (now : Int)
    (hh : casHashObject type data = .ok hash) (hs : Fresh st hash) :
    ∃ data', casPutObject noFaults st type data now = .ok (st.setLoose hash ⟨data', now⟩, hash) := by
  obtain ⟨hdr, hform, rfl⟩ := casHashObject_spec type data hash hh
  obtain ⟨-, -, -, hle⟩ := formatHeader_spec type data.length hdr hform
  have h56 : ¬ hdr.length > CAS_PACK_HEADER_LEN := by
    unfold CAS_PACK_HEADER_LEN
    omega
  unfold casPutObject
  simp only [hform, if_neg h56, if_neg hs.not_stored]
  exact ⟨_, rfl⟩

/-- A depot with one loose object of time 0. -/
def oldObject (hash data : Bytes) : Store := ⟨AList.singleton hash ⟨data, 0⟩, fun _ => none, none⟩

/-- The closure of an empty directory is itself. -/
theorem closure_emptyDir (hash other : Bytes) (h : Closure [(hash, (tTree, [37]))] hash other) : other = hash := by
  obtain ⟨b, h⟩ := h
  suffices ∀ e, Reach (putKids [(hash, (tTree, [37]))]) (fun _ => True) [hash] e → e.1 = hash from this _ h
  intro e he
  induction he with
  | root hr => exact List.mem_singleton.mp hr
  | kid _ _ hk ih =>
    simp only [] at ih
    have hnone : putKids [(hash, (tTree, [37]))] hash = [] := by
      unfold putKids
      rw [List.find?_cons_of_pos (by simp)]
      show objectKids (tTree, [37]) = []
      decide
    rw [ih, hnone] at hk
    cases hk

theorem oneFile_lookup (hash : Bytes) (f : LooseFile) :
    (AList.singleton hash f : AList fun _ : Bytes => LooseFile).lookup hash = some f := by
  unfold AList.lookup AList.singleton
  exact List.dlookup_cons_eq _ _ _

section
variable (hash : Bytes) (hlow : LowerHash hash)
include hlow

theorem foreach_oneFile (f : LooseFile) :
    (casForeach noFaults ⟨AList.singleton hash f, fun _ => none, none⟩).1 = [hash] := by
  unfold casForeach
  rw [if_neg (by simp [noFaults])]
  show ([hash] : List Bytes).filter (foreachLists noFaults) = [hash]
  rw [List.filter_cons_of_pos (foreachLists_lower hash hlow)]
  rfl

/-- An unmarked file is spared when it is not older than a positive cutoff. -/
theorem spares_oneFile (f : LooseFile) (cutoff : Int) (hpos : 0 < cutoff) :
    sweepSpares noFaults HashSet.init cutoff ⟨AList.singleton hash f, fun _ => none, none⟩ hash =
      decide (f.mtime ≥ cutoff) := by
  unfold sweepSpares casObjectMtime
  rw [if_neg (by simp [hlow.valid])]
  show ((false || (decide (cutoff > 0) && _)) : Bool) = _
  simp only [oneFile_lookup hash f]
  simp [hpos, noFaults]

theorem commit_new (refs : Refs) : ∃ refs', casTreeRefCommit refs [109] hash [] 5000 0 = .ok refs' := by
  unfold casTreeRefCommit
  rw [if_neg]
  · exact ⟨_, rfl⟩
  · have hname : validRefName [109] = true := by decide
    simp [hname, hlow.valid]

variable (hh : casHashObject tTree [37] = .ok hash)
include hh

/-- The writer finds the object stored, the sweep removes it, and the writer commits it in time. -/
theorem race_loses_old (data : Bytes) : ∃ w, AnyRun [] 3600 (World.start (oldObject hash data) none 5000) w ∧
    w.root = some hash ∧ w.gc = .done ∧ ¬ w.Safe := by
  have hstored : ¬ Fresh (oldObject hash data) hash := by
    rintro ⟨hl, -⟩
    simp only [oldObject, Store.hasLoose, oneFile_lookup] at hl
    cases hl
  have hnames := foreach_oneFile hash hlow ⟨data, 0⟩
  have hold : sweepSpares noFaults HashSet.init 1400 (oldObject hash data) hash = false :=
    spares_oneFile hash hlow ⟨data, 0⟩ 1400 (by decide)
  obtain ⟨refs, hrefs⟩ := commit_new hash hlow none
  let w0 : World := World.start (oldObject hash data) none 5000
  let w1 : World := { w0 with gc := .marking [] HashSet.init }
  let w2 : World := { w1 with gc := .sweeping [hash] HashSet.init 1400 none }
  let w3 : World := w2.afterPut (tTree, [37]) (oldObject hash data) hash
  let w4 : World := { w3 with gc := .sweeping [] HashSet.init 1400 (some hash) }
  let w5 : World :=
    { w4 with store := (casRemove noFaults (oldObject hash data) hash).2, gc := .sweeping [] HashSet.init 1400 none }
  let w6 : World := { w5 with gc := .done }
  let w7 : World := { w6 with refs := refs, root := some hash }
  have s1 : Step [] 3600 w0 .gcStart w1 := .gcStart w0 rfl
  have s2 : Step [] 3600 w1 .gcSweep w2 := by
    have := @Step.gcSweep [] 3600 w1 HashSet.init rfl
    rw [show (casForeach noFaults w1.store).1 = [hash] from hnames] at this
    exact this
  have s3 : Step [] 3600 w2 (.put tTree [37]) w3 :=
    .put w2 tTree [37] hash _ rfl (casPutObject_stored noFaults _ tTree [37] hash 5000 hh hstored)
  have s4 : Step [] 3600 w3 (.gcTest hash) w4 := by
    have := @Step.gcTest [] 3600 w3 [hash] HashSet.init 1400 hash rfl
      (by rw [show (casForeach noFaults w3.store).1 = [hash] from hnames]; simp)
    rw [show sweepSpares noFaults HashSet.init 1400 w3.store hash = false from hold] at this
    simpa using this
  have s5 : Step [] 3600 w4 .gcRemove w5 := .gcRemove w4 [] HashSet.init 1400 hash rfl
  have s6 : Step [] 3600 w5 .gcDone w6 := .gcDone w5 HashSet.init 1400 rfl
  have s7 : Step [] 3600 w6 (.commit [109] hash [] 0) w7 := by
    refine .commit w6 [109] hash [] 0 refs rfl ?_ ?_ hrefs
    · intro other h
      rw [closure_emptyDir hash other h]
      exact List.mem_singleton_self hash
    · intro t ht
      obtain rfl : (5000 : Int) = t := Option.some.inj ht
      show (5000 : Int) < 5000 + 3600
      decide
  refine ⟨w7, ?_, rfl, rfl, ?_⟩
  · exact (((((((Relation.ReflTransGen.refl.tail ⟨_, s1⟩).tail ⟨_, s2⟩).tail ⟨_, s3⟩).tail ⟨_, s4⟩).tail ⟨_, s5⟩).tail
      ⟨_, s6⟩).tail ⟨_, s7⟩)
  · intro hsafe
    have hex : casExists w7.store hash = true :=
      hsafe hash rfl hash ⟨true, .root (List.mem_singleton_self hash)⟩
    have hgone := casRemove_gone (oldObject hash data) hash hlow.valid
    have hpack := (casRemove_rest noFaults (oldObject hash data) hash).1
    have hno : casExists (casRemove noFaults (oldObject hash data) hash).2 hash = false := by
      unfold casExists Store.packed Store.hasLoose
      rw [hgone, hpack]
      simp [oldObject]
    rw [show casExists w7.store hash = false from hno] at hex
    cases hex

/-- With the same collection the object is put where there was none, and the run is careful. -/
theorem careful_new : ∃ w, CarefulRun [] 3600 (World.start ⟨∅, fun _ => none, none⟩ none 5000) w ∧
    w.root = some hash ∧ w.gc = .done := by
  obtain ⟨data, hput⟩ := casPutObject_new ⟨∅, fun _ => none, none⟩ tTree [37] hash 5000 hh ⟨rfl, rfl⟩
  have hnames : (casForeach noFaults (Store.setLoose ⟨∅, fun _ => none, none⟩ hash ⟨data, 5000⟩)).1 = [hash] :=
    foreach_oneFile hash hlow ⟨data, 5000⟩
  have hyoung : sweepSpares noFaults HashSet.init 1400 (Store.setLoose ⟨∅, fun _ => none, none⟩ hash ⟨data, 5000⟩)
      hash = true := spares_oneFile hash hlow ⟨data, 5000⟩ 1400 (by decide)
  obtain ⟨refs, hrefs⟩ := commit_new hash hlow none
  let w0 : World := World.start ⟨∅, fun _ => none, none⟩ none 5000
  let w1 : World := { w0 with gc := .marking [] HashSet.init }
  let w2 : World := w1.afterPut (tTree, [37]) (w1.store.setLoose hash ⟨data, 5000⟩) hash
  let w3 : World := { w2 with gc := .sweeping [hash] HashSet.init 1400 none }
  let w4 : World := { w3 with gc := .sweeping [] HashSet.init 1400 none }
  let w5 : World := { w4 with gc := .done }
  let w6 : World := { w5 with refs := refs, root := some hash }
  have s1 : Step [] 3600 w0 .gcStart w1 := .gcStart w0 rfl
  have s2 : Step [] 3600 w1 (.put tTree [37]) w2 := .put w1 tTree [37] hash _ rfl hput
  have s3 : Step [] 3600 w2 .gcSweep w3 := by
    have := @Step.gcSweep [] 3600 w2 HashSet.init rfl
    rw [show (casForeach noFaults w2.store).1 = [hash] from hnames] at this
    exact this
  have s4 : Step [] 3600 w3 (.gcTest hash) w4 := by
    have := @Step.gcTest [] 3600 w3 [hash] HashSet.init 1400 hash rfl
      (by rw [show (casForeach noFaults w3.store).1 = [hash] from hnames]; simp)
    rw [show sweepSpares noFaults HashSet.init 1400 w3.store hash = true from hyoung] at this
    simpa using this
  have s5 : Step [] 3600 w4 .gcDone w5 := .gcDone w4 HashSet.init 1400 rfl
  have s6 : Step [] 3600 w5 (.commit [109] hash [] 0) w6 := by
    refine .commit w5 [109] hash [] 0 refs rfl ?_ ?_ hrefs
    · intro other h
      rw [closure_emptyDir hash other h]
      exact List.mem_singleton_self hash
    · intro t ht
      obtain rfl : (5000 : Int) = t := Option.some.inj ht
      show (5000 : Int) < 5000 + 3600
      decide
  -- nothing the writer put was stored before, and the cutoff is 1400
  have hcut : gcCutoff 3600 w2.now = 1400 := rfl
  have hcare : Careful 3600 w2 .gcSweep := by
    intro _
    show (_ → 0 < gcCutoff 3600 w2.now) ∧ _
    rw [hcut]
    refine ⟨fun _ => by decide, ?_⟩
    intro other _ hask
    rcases hask with hask | hask
    · cases hask
    · refine absurd ⟨by decide, ?_⟩ hask
      intro t ht
      obtain rfl : (5000 : Int) = t := Option.some.inj ht
      decide
  refine ⟨w6, ?_, rfl, rfl⟩
  exact ((((((Relation.ReflTransGen.refl.tail ⟨_, s1, fun _ => trivial⟩).tail ⟨_, s2, fun _ => trivial⟩).tail
    ⟨_, s3, hcare⟩).tail ⟨_, s4, fun _ => trivial⟩).tail ⟨_, s5, fun _ => trivial⟩).tail ⟨_, s6, fun _ => trivial⟩)

end

/-- Both parties finish, the writer in time, and the committed root is gone. -/
theorem race_loses_shared : ∃ st refs now w, AnyRun [] 3600 (World.start st refs now) w ∧
    w.root = some (toHex emptyDirBin) ∧ w.gc = .done ∧ ¬ w.Safe := by
  have hlow : LowerHash (toHex emptyDirBin) := lowerHash_toHex _ length_emptyDirBin
  obtain ⟨w, h⟩ := race_loses_old (toHex emptyDirBin) hlow address_emptyDir []
  exact ⟨_, _, _, w, h⟩

theorem race_safe_new : ∃ w : World, w.root = some (toHex emptyDirBin) ∧ w.gc = .done ∧ w.Safe := by
  have hlow : LowerHash (toHex emptyDirBin) := lowerHash_toHex _ length_emptyDirBin
  obtain ⟨w, hrun, hroot, hdone⟩ := careful_new (toHex emptyDirBin) hlow address_emptyDir
  exact ⟨w, hroot, hdone, race_safe [] 3600 _ _ _ w hrun⟩

end Smolvfs
