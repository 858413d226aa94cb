import Smolvfs.Lib.Runs
import Smolvfs.OmapSnapshot

/-!
# Object maps over runs

Any number of object maps over one store, their calls in any order, any of
which may fail, and a store that others change between the calls.  `spec` is the
finite map a caller has in mind: what the calls that succeeded make of it.
`filed` is what the calls put into the store, `saved` the roots they returned.

* `omap_finite_map`: as long as the stored objects read back, no call puts the
  all-zero hash and no stored page has the all-zero address, every map acts as
  its finite map; `omap_zero_hash_lost` puts the all-zero hash.
* `omap_snapshots`: roots depend on the mapping alone, a root gives back its
  mapping for ever, and storing changes no mapping.
-/

namespace Smolvfs

open Octets Runs

/-! ## The system -/

/-- A finite map from ids to hashes. -/
abbrev IdMap := UInt64 → Option Bytes

/-- A call on a map; `foreach` with a callback that stops where `stop` says. -/
inductive OmapCall
  | get (id : UInt64)
  | put (id : UInt64) (hash : Bytes)
  | del (id : UInt64)
  | clear
  | store
  | load (root : Bytes)
  | foreach (stop : UInt64 → Bytes → Bool)

/-- What a call returns and leaves: its status, the store, the map, what it put and the root. -/
structure OmapResult where
  status : Status
  st : Store
  om : Omap
  filed : Filed
  root : Option Bytes

/-- The status of a call that returns a value. -/
def exceptStatus {α : Type} : Except Status α → Status
  | .ok _ => .ok
  | .error rc => rc

def OmapCall.run (cs : Codecs) (flt : Faults) (now : Int) (st : Store) (om : Omap) : OmapCall → OmapResult
  | .get id => ⟨exceptStatus (casOmapGet cs flt st om id).1, st, (casOmapGet cs flt st om id).2, [], none⟩
  | .put id hash => ⟨(casOmapPut cs flt st om id hash).1, st, (casOmapPut cs flt st om id hash).2, [], none⟩
  | .del id => ⟨(casOmapDel cs flt st om id).1, st, (casOmapDel cs flt st om id).2, [], none⟩
  | .clear => ⟨.ok, st, casOmapClear om, [], none⟩
  | .store =>
    let out := casOmapStore flt st om now
    ⟨exceptStatus out.1, out.2.1, out.2.2, storeFiles out, out.1.toOption⟩
  | .load root => ⟨(casOmapLoad cs flt st om root).1, st, (casOmapLoad cs flt st om root).2, [], none⟩
  | .foreach stop =>
    let out := casOmapForeach (fun id hash ctx => (stop id hash, ctx)) cs flt st om ()
    ⟨out.1, st, out.2.1, [], none⟩

structure OmapSys where
  st : Store
  maps : Nat → Omap
  filed : Filed
  saved : List (Bytes × IdMap)
  spec : Nat → IdMap

/-- New maps over a store. -/
def OmapSys.start (st : Store) : OmapSys := ⟨st, fun _ => casOmapNew, [], [], fun _ _ => none⟩

/-- What a call that succeeds makes of the finite map. -/
def OmapCall.effect (saved : List (Bytes × IdMap)) (m : IdMap) : OmapCall → IdMap
  | .put id hash => Function.update m id (some (hash.map lowerDigit))
  | .del id => Function.update m id none
  | .clear => fun _ => none
  | .load root => (saved.lookup root).getD m
  | _ => m

/-- Map `k` is called. -/
def OmapSys.call (cs : Codecs) (s : OmapSys) (k : Nat) (flt : Faults) (now : Int) (c : OmapCall) : OmapSys :=
  let r := c.run cs flt now s.st (s.maps k)
  { st := r.st
    maps := Function.update s.maps k r.om
    filed := s.filed ++ r.filed
    saved := (r.root.map fun root => (root, s.spec k)).toList ++ s.saved
    spec := if r.status = .ok then Function.update s.spec k (c.effect s.saved (s.spec k)) else s.spec }

inductive OmapAct
  /-- A call on map `k`. -/
  | call (k : Nat) (flt : Faults) (now : Int) (c : OmapCall)
  /-- Others change the store. -/
  | depot (st : Store)

def OmapSys.act (cs : Codecs) (s : OmapSys) : OmapAct → OmapSys
  | .call k flt now c => s.call cs k flt now c
  | .depot st => { s with st := st }

def OmapStep (cs : Codecs) (s : OmapSys) (a : OmapAct) (s' : OmapSys) : Prop := s' = s.act cs a

/-- What was stored reads back during a call. -/
def OmapReads (cs : Codecs) (s : OmapSys) : OmapAct → Prop
  | .call _ flt _ _ => Readable cs flt s.st s.filed
  | .depot _ => True

/-- A load is of a root that was stored. -/
def LoadsSaved (s : OmapSys) : OmapAct → Prop
  | .call _ _ _ (.load root) => ∃ m, (root, m) ∈ s.saved
  | _ => True

def OmapIntact (cs : Codecs) (s : OmapSys) (a : OmapAct) : Prop := OmapReads cs s a ∧ LoadsSaved s a

/-- The call does not put the all-zero hash. -/
def NoZeroPut : OmapAct → Prop
  | .call _ _ _ (.put _ hash) => hash ≠ zeroHash
  | _ => True

/-- The call does not store a page whose address is all-zero. -/
def NoZeroPage (s : OmapSys) : OmapAct → Prop
  | .call k _ _ .store => ∀ de ∈ (s.maps k).dir, ∀ pg, de.cached = some pg → objSlot (opageObj pg.slots) ≠ zeroSlot
  | _ => True

/-! ## The invariant -/

/-- Every map holds pages, and every root names some; with `strict`, those of the finite maps. -/
structure OmapInv (strict : Bool) (s : OmapSys) : Prop where
  holds : ∀ k, ∃ C, OmapHolds s.filed strict (s.maps k) C ∧ (strict = true → mapping C = s.spec k)
  saved : ∀ p ∈ s.saved, ∃ C, SavedRoot s.filed strict p.1 C ∧ (strict = true → mapping C = p.2)

theorem mapping_empty : mapping (fun _ => emptySlots) = fun _ => none := rfl

theorem omapInv_start (strict : Bool) (st : Store) : OmapInv strict (OmapSys.start st) where
  holds := fun _ => ⟨_, holds_new, fun _ => mapping_empty⟩
  saved := by simp [OmapSys.start]

variable {cs : Codecs} {flt : Faults} {strict : Bool}

theorem mem_of_lookup_saved {saved : List (Bytes × IdMap)} {root : Bytes} {m : IdMap}
    (h : saved.lookup root = some m) : (root, m) ∈ saved := by
  induction saved with
  | nil => cases h
  | cons p rest ih =>
    rw [List.lookup_cons] at h
    split at h
    · next heq =>
      obtain rfl := Option.some.inj h
      rw [beq_iff_eq] at heq
      exact List.mem_cons.mpr (Or.inl (by rw [heq]))
    · exact List.mem_cons_of_mem _ (ih h)

theorem lookup_saved_of_mem {saved : List (Bytes × IdMap)} {root : Bytes} {m : IdMap} (h : (root, m) ∈ saved) :
    ∃ m', saved.lookup root = some m' := by
  induction saved with
  | nil => cases h
  | cons p rest ih =>
    rw [List.lookup_cons]
    split
    · exact ⟨_, rfl⟩
    · next hne =>
      rcases List.mem_cons.mp h with rfl | h
      · simp at hne
      · exact ih h

section
variable {st : Store} {W : Filed} {om : Omap} {C : Pages} {saved : List (Bytes × IdMap)}

/-- What the map holds after a call that went as `r` says. -/
def CallHolds (W : Filed) (strict : Bool) (C : Pages) (saved : List (Bytes × IdMap)) (c : OmapCall)
    (r : OmapResult) : Prop :=
  ∃ C', OmapHolds (W ++ r.filed) strict r.om C' ∧
    (strict = true → mapping C' = if r.status = .ok then c.effect saved (mapping C) else mapping C)

/-- A call that puts nothing and changes no page. -/
theorem callHolds_same (c : OmapCall) (status : Status) (om' : Omap) (h : OmapHolds W strict om' C)
    (he : c.effect saved (mapping C) = mapping C) : CallHolds W strict C saved c ⟨status, st, om', [], none⟩ := by
  refine ⟨C, ?_, fun _ => ?_⟩
  · rw [List.append_nil]
    exact h
  · rw [he, ite_self]

/-- **One call**: what the map holds then, and what the finite map is. -/
theorem call_holds (c : OmapCall) (now : Int) (hr : Readable cs flt st W) (h : OmapHolds W strict om C)
    (hsaved : ∀ p ∈ saved, ∃ D, SavedRoot W strict p.1 D ∧ (strict = true → mapping D = p.2))
    (hload : ∀ root, c = .load root → ∃ m, (root, m) ∈ saved)
    (hput : ∀ id hash, c = .put id hash → hash ≠ zeroHash) :
    CallHolds W strict C saved c (c.run cs flt now st om) := by
  cases c with
  | get id => exact callHolds_same _ _ _ (get_holds hr h id).2 rfl
  | put id hash =>
    by_cases hv : validHash hash = true
    · have hz := hput id hash rfl
      rcases put_holds hr h id hash hv hz with ⟨h1, h2, -⟩ | ⟨h1, C', h2, h3⟩
      · refine ⟨C, ?_, fun _ => ?_⟩
        · simp only [OmapCall.run, h2, List.append_nil]
          exact h
        · simp only [OmapCall.run, h1]
          rfl
      · refine ⟨C', ?_, fun hs => ?_⟩
        · simp only [OmapCall.run, List.append_nil]
          exact h2
        · have hne : slotOfHash hash zeroSlot ≠ zeroSlot := fun h0 => hz ((slotOfHash_eq_zero hash hv zeroSlot).mp h0)
          simp only [OmapCall.run, h1]
          rw [h3 hs, mapping_fill _ _ _ hne, toHex_slotOfHash hash hv, if_pos trivial]
          rfl
    · have hbad : casOmapPut cs flt st om id hash = (.err, om) := by
        unfold casOmapPut
        rw [if_pos (by simpa using hv)]
      refine ⟨C, ?_, fun _ => ?_⟩
      · simp only [OmapCall.run, hbad, List.append_nil]
        exact h
      · simp only [OmapCall.run, hbad]
        rfl
  | del id =>
    rcases del_holds hr h id with ⟨-, h2, h3⟩ | ⟨-, h2, h3⟩
    · refine ⟨C, ?_, fun _ => ?_⟩
      · simp only [OmapCall.run, List.append_nil]
        exact h3
      · simp only [OmapCall.run, h2]
        rfl
    · refine ⟨setSlot C id zeroSlot, ?_, fun _ => ?_⟩
      · simp only [OmapCall.run, List.append_nil]
        exact h3
      · simp only [OmapCall.run, h2]
        rw [mapping_free, if_pos trivial]
        rfl
  | clear =>
    refine ⟨fun _ => emptySlots, ?_, fun _ => rfl⟩
    simp only [OmapCall.run, List.append_nil]
    exact holds_new
  | store =>
    refine ⟨C, (store_holds flt st h now).1, fun _ => ?_⟩
    rw [show OmapCall.store.effect saved (mapping C) = mapping C from rfl, ite_self]
  | load root =>
    obtain ⟨m, hm⟩ := hload root rfl
    obtain ⟨m', hm'⟩ := lookup_saved_of_mem hm
    obtain ⟨D, hD, hmap⟩ := hsaved _ (mem_of_lookup_saved hm')
    obtain ⟨h1, h2⟩ := load_saved hr root hD om
    refine ⟨D, ?_, fun hs => ?_⟩
    · simp only [OmapCall.run, List.append_nil]
      exact h2
    · simp only [OmapCall.run, h1, OmapCall.effect, hm']
      rw [if_pos trivial]
      exact hmap hs
  | foreach stop => exact callHolds_same _ _ _ (foreach_holds _ hr h ()).2.1 rfl

/-- A root comes from a store. -/
theorem run_root (c : OmapCall) (now : Int) (root : Bytes) (h : (c.run cs flt now st om).root = some root) :
    c = .store ∧ (casOmapStore flt st om now).1 = .ok root := by
  cases c with
  | store =>
    refine ⟨rfl, ?_⟩
    simp only [OmapCall.run] at h
    cases hout : (casOmapStore flt st om now).1 with
    | error rc => simp [hout, Except.toOption] at h
    | ok r =>
      rw [hout] at h
      exact congrArg Except.ok (Option.some.inj h)
  | _ => cases h

/-- Where no loaded page has the all-zero address, none has: the others are named by theirs. -/
theorem pages_nonzero (h : OmapHolds W true om C)
    (hz : ∀ de ∈ om.dir, ∀ pg, de.cached = some pg → objSlot (opageObj pg.slots) ≠ zeroSlot) (n : Nat)
    (hn : C n ≠ emptySlots) : objSlot (opageObj (C n)) ≠ zeroSlot := by
  rcases dirEntry_cases h n with ⟨de, -, hpos, rfl, hP⟩ | ⟨-, -, hC⟩
  · have hmem := List.mem_of_getElem? hpos
    cases hc : de.cached with
    | some pg =>
      have := hz de hmem pg hc
      rw [(hP.cached pg hc).1] at this
      exact this
    | none =>
      obtain ⟨-, h2, -⟩ := hP.clean (by intro pg hpg; rw [hc] at hpg; cases hpg)
      rw [← h2]
      exact (hP.exact rfl).2 hc
  · exact absurd hC hn

end

/-- What a call filed stays filed. -/
theorem filed_subset (cs : Codecs) (s : OmapSys) (a : OmapAct) : ∀ p ∈ s.filed, p ∈ (s.act cs a).filed := by
  intro p hp
  cases a with
  | call k flt now c => exact List.mem_append_left _ hp
  | depot st => exact hp

/-- **One step** keeps the invariant; the strict one, if no page has the all-zero address. -/
theorem omapInv_step (s s' : OmapSys) (a : OmapAct) (h : OmapInv strict s) (hs : OmapStep cs s a s')
    (hi : OmapIntact cs s a) (hput : NoZeroPut a) (hpage : strict = true → NoZeroPage s a) : OmapInv strict s' := by
  obtain rfl := hs
  cases a with
  | depot st => exact ⟨h.holds, h.saved⟩
  | call k flt now c =>
    obtain ⟨hr, hload⟩ := hi
    obtain ⟨C, hC, hspec⟩ := h.holds k
    have hcall := call_holds c now hr hC h.saved
      (by rintro root rfl; exact hload) (by rintro id hash rfl; exact hput)
    have hsub := filed_subset cs s (.call k flt now c)
    constructor
    · intro j
      by_cases hj : j = k
      · subst hj
        obtain ⟨C', h1, h2⟩ := hcall
        refine ⟨C', ?_, fun hs => ?_⟩
        · show OmapHolds _ strict (Function.update s.maps j _ j) C'
          rw [Function.update_self]
          exact h1
        · rw [h2 hs, hspec hs]
          show _ = (if (c.run cs flt now s.st (s.maps j)).status = .ok then
            Function.update s.spec j (c.effect s.saved (s.spec j)) else s.spec) j
          split
          · rw [Function.update_self]
          · rfl
      · obtain ⟨D, h1, h2⟩ := h.holds j
        refine ⟨D, ?_, fun hs => ?_⟩
        · show OmapHolds _ strict (Function.update s.maps k _ j) D
          rw [Function.update_of_ne hj]
          exact h1.mono hsub
        · rw [h2 hs]
          show _ = (if (c.run cs flt now s.st (s.maps k)).status = .ok then
            Function.update s.spec k (c.effect s.saved (s.spec k)) else s.spec) j
          split
          · rw [Function.update_of_ne hj]
          · rfl
    · intro p hp
      rcases List.mem_append.mp hp with hp | hp
      · obtain ⟨root, hroot, hpe⟩ := Option.map_eq_some_iff.mp (Option.mem_toList.mp hp)
        obtain ⟨rfl, hok⟩ := run_root c now root hroot
        rw [← hpe]
        refine ⟨C, casOmapStore_saved hC now root hok ?_, hspec⟩
        intro hs n hn
        subst hs
        exact pages_nonzero hC (hpage rfl) n hn
      · obtain ⟨D, h1, h2⟩ := h.saved p hp
        exact ⟨D, h1.mono hsub, h2⟩

/-! ## Runs -/

/-- The runs in which stored objects read back and nobody puts the all-zero hash. -/
def Proper (cs : Codecs) (s : OmapSys) (a : OmapAct) : Prop := OmapIntact cs s a ∧ NoZeroPut a

/-- Those in which, besides, no stored page has the all-zero address. -/
def Tame (cs : Codecs) (s : OmapSys) (a : OmapAct) : Prop := Proper cs s a ∧ NoZeroPage s a

theorem omapInv_proper (st : Store) (s : OmapSys) (h : Run (OmapStep cs) (Proper cs) (OmapSys.start st) s) :
    OmapInv false s :=
  h.invariant (OmapInv false) (omapInv_start false st)
    fun s a s' hi hs hg => omapInv_step s s' a hi hs hg.1 hg.2 fun hf => by cases hf

theorem omapInv_tame (st : Store) (s : OmapSys) (h : Run (OmapStep cs) (Tame cs) (OmapSys.start st) s) :
    OmapInv true s :=
  h.invariant (OmapInv true) (omapInv_start true st)
    fun s a s' hi hs hg => omapInv_step s s' a hi hs hg.1.1 hg.1.2 fun _ => hg.2

/-! ## The finite map -/

/-- What `cas_omap_get` says of a finite map. -/
def lookupResult (m : IdMap) (id : UInt64) : Except Status Bytes :=
  match m id with
  | some hash => .ok hash
  | none => .error .enotfound

/-- The object map `om` behaves as the finite map `m`. -/
structure ActsAs (cs : Codecs) (flt : Faults) (st : Store) (om : Omap) (m : IdMap) : Prop where
  get : ∀ id, (casOmapGet cs flt st om id).1 = lookupResult m id
  put : ∀ id hash, validHash hash = true → hash ≠ zeroHash →
    (casOmapPut cs flt st om id hash).1 = .ok ∨
      ((casOmapPut cs flt st om id hash).1 = .enomem ∧ 2 ^ 30 ≤ om.dir.length)
  del : ∀ id, (casOmapDel cs flt st om id).1 = if m id = none then .enotfound else .ok
  count : (casOmapCount om).toNat = Set.ncard {id | m id ≠ none}
  foreach : ∃ pairs : List (UInt64 × Bytes), pairs.Pairwise (fun p q => p.1.toNat < q.1.toNat) ∧
    (∀ id hash, (id, hash) ∈ pairs ↔ m id = some hash) ∧
    ∀ (σ : Type) (fn : UInt64 → Bytes → σ → Bool × σ) (ctx : σ),
      (casOmapForeach fn cs flt st om ctx).1 = .ok ∧
        (casOmapForeach fn cs flt st om ctx).2.2 = (visitPairs fn pairs ctx).2

theorem holds_actsAs {st : Store} {W : Filed} {om : Omap} {C : Pages} (hr : Readable cs flt st W)
    (h : OmapHolds W true om C) : ActsAs cs flt st om (mapping C) where
  get := fun id => (get_holds hr h id).1
  put := by
    intro id hash hv hz
    rcases put_holds hr h id hash hv hz with ⟨h1, -, h3⟩ | ⟨h1, -⟩
    · exact Or.inr ⟨h1, h3⟩
    · exact Or.inl h1
  del := by
    intro id
    rcases del_holds hr h id with ⟨h1, h2, -⟩ | ⟨h1, h2, -⟩
    · rw [if_pos h1]
      exact h2
    · rw [if_neg h1]
      exact h2
  count := count_holds h
  foreach := by
    refine ⟨mappedPairs om.dir C, mappedPairs_ordered h, mem_mappedPairs h, ?_⟩
    intro σ fn ctx
    obtain ⟨h1, -, h3⟩ := foreach_holds fn hr h ctx
    exact ⟨h1, h3 rfl⟩

/-- The status of a call on map `k`. -/
def OmapSys.status (cs : Codecs) (s : OmapSys) (k : Nat) (flt : Faults) (now : Int) (c : OmapCall) : Status :=
  (c.run cs flt now s.st (s.maps k)).status

/-- **The object map is a finite map**, in every run in which the stored objects read back, no call puts
the all-zero hash and no page is stored at the all-zero address.  The finite map is what the calls that
succeeded made of it, so a failed call changes nothing. -/
theorem omap_finite_map (cs : Codecs) (st : Store) (s : OmapSys)
    (h : Run (OmapStep cs) (Tame cs) (OmapSys.start st) s) (k : Nat) :
    (∀ flt, Readable cs flt s.st s.filed → ActsAs cs flt s.st (s.maps k) (s.spec k)) ∧
      (∀ flt now root m, Readable cs flt s.st s.filed → (root, m) ∈ s.saved →
        s.status cs k flt now (.load root) = .ok) ∧
      ∀ flt now c, Tame cs s (.call k flt now c) → s.status cs k flt now c ≠ .ok →
        ∀ flt', Readable cs flt' (s.call cs k flt now c).st (s.call cs k flt now c).filed →
          ActsAs cs flt' (s.call cs k flt now c).st ((s.call cs k flt now c).maps k) (s.spec k) := by
  have hinv := omapInv_tame st s h
  refine ⟨?_, ?_, ?_⟩
  · intro flt hr
    obtain ⟨C, hC, hm⟩ := hinv.holds k
    rw [← hm rfl]
    exact holds_actsAs hr hC
  · intro flt now root m hr hmem
    obtain ⟨C, hC, -⟩ := hinv.saved _ hmem
    exact (load_saved hr root hC (s.maps k)).1
  · intro flt now c ht hfail flt' hr
    have hinv' := omapInv_step s _ _ hinv rfl ht.1.1 ht.1.2 fun _ => ht.2
    obtain ⟨C, hC, hm⟩ := hinv'.holds k
    have hspec : (s.act cs (.call k flt now c)).spec = s.spec := if_neg hfail
    rw [← hspec, ← hm rfl]
    exact holds_actsAs hr hC

/-- Two ids are put and one of them deleted. -/
theorem omap_finite_map_run : ∃ s, Run (OmapStep []) (Tame []) (OmapSys.start Store.empty) s ∧
    s.spec 0 = Function.update (fun _ => none) 300 (some oneHash) ∧
    ActsAs [] noFaults s.st (s.maps 0) (s.spec 0) := by
  have hread : ∀ st, Readable [] noFaults st [] := by simp [Readable]
  have hone : oneHash ≠ zeroHash := by decide
  have h0 : Run (OmapStep []) (Tame []) (OmapSys.start Store.empty) (OmapSys.start Store.empty) := .refl _
  have h1 := h0.tail (a := OmapAct.call 0 noFaults 0 (.put 5 oneHash)) rfl ⟨⟨⟨hread _, trivial⟩, hone⟩, trivial⟩
  have h2 := h1.tail (a := OmapAct.call 0 noFaults 0 (.put 300 oneHash)) rfl ⟨⟨⟨hread _, trivial⟩, hone⟩, trivial⟩
  have h3 := h2.tail (a := OmapAct.call 0 noFaults 0 (.del 5)) rfl ⟨⟨⟨hread _, trivial⟩, trivial⟩, trivial⟩
  refine ⟨_, h3, ?_, (omap_finite_map [] Store.empty _ h3 0).1 noFaults (hread _)⟩
  have hspec : ∀ id, (((((OmapSys.start Store.empty).call [] 0 noFaults 0 (.put 5 oneHash)).call [] 0 noFaults 0
      (.put 300 oneHash)).call [] 0 noFaults 0 (.del 5)).spec 0) id = Function.update (Function.update
        (Function.update (fun _ => none) 5 (some oneHash)) 300 (some oneHash)) 5 none id := fun _ => rfl
  funext id
  refine (hspec id).trans ?_
  by_cases h5 : id = 5
  · subst h5
    rfl
  · rw [Function.update_of_ne h5]
    by_cases h300 : id = 300
    · subst h300
      rfl
    · rw [Function.update_of_ne h300, Function.update_of_ne h5, Function.update_of_ne h300]

/-- The all-zero hash is put, and is not there; it is counted all the same. -/
theorem omap_zero_hash_lost : ∃ s, Run (OmapStep []) (OmapIntact []) (OmapSys.start Store.empty) s ∧
    Readable [] noFaults s.st s.filed ∧ s.spec 0 7 = some zeroHash ∧
    (casOmapGet [] noFaults s.st (s.maps 0) 7).1 = .error .enotfound ∧
    (casOmapDel [] noFaults s.st (s.maps 0) 7).1 = .enotfound ∧ (casOmapCount (s.maps 0)).toNat = 1 ∧
    ¬ ActsAs [] noFaults s.st (s.maps 0) (s.spec 0) := by
  have hread : ∀ st, Readable [] noFaults st [] := by simp [Readable]
  have h0 : Run (OmapStep []) (OmapIntact []) (OmapSys.start Store.empty) (OmapSys.start Store.empty) := .refl _
  have h1 := h0.tail (a := OmapAct.call 0 noFaults 0 (.put 7 zeroHash)) rfl ⟨hread _, trivial⟩
  refine ⟨_, h1, hread _, rfl, rfl, rfl, rfl, ?_⟩
  intro hacts
  have h2 := (hacts.get 7).symm.trans rfl
  cases h2

/-! ## Snapshots -/

theorem filed_grows {guard : OmapSys → OmapAct → Prop} (s s' : OmapSys) (h : Run (OmapStep cs) guard s s') :
    ∀ p ∈ s.filed, p ∈ s'.filed := by
  refine h.invariant (fun s' => ∀ p ∈ s.filed, p ∈ s'.filed) (fun p hp => hp) ?_
  intro s₁ a s₂ hi hs _ p hp
  rw [hs]
  exact filed_subset cs s₁ a p (hi p hp)

/-- What `cas_omap_get` says of each id. -/
def omapGets (cs : Codecs) (flt : Faults) (st : Store) (om : Omap) (id : UInt64) : Except Status Bytes :=
  (casOmapGet cs flt st om id).1

section
variable {st : Store} {W : Filed} {om : Omap} {C : Pages}

theorem omapGets_holds (hr : Readable cs flt st W) (h : OmapHolds W strict om C) :
    omapGets cs flt st om = lookupResult (mapping C) := by
  funext id
  exact (get_holds hr h id).1

theorem lookupResult_injective (m m' : IdMap) (h : lookupResult m = lookupResult m') : m = m' := by
  funext id
  have hid := congrFun h id
  unfold lookupResult at hid
  cases hm : m id with
  | none =>
    cases hm' : m' id with
    | none => rfl
    | some hash => simp [hm, hm'] at hid
  | some hash =>
    cases hm' : m' id with
    | none => simp [hm, hm'] at hid
    | some hash' =>
      rw [hm, hm'] at hid
      exact congrArg some (Except.ok.inj hid)

/-- What a store returns is made of the pages. -/
theorem store_root {st' : Store} {W' : Filed} {om' : Omap} {flt flt' : Faults} (h : OmapHolds W strict om C)
    (h' : OmapHolds W' strict om' C) (now now' : Int) (root root' : Bytes)
    (hok : (casOmapStore flt st om now).1 = .ok root) (hok' : (casOmapStore flt' st' om' now').1 = .ok root') :
    root = root' := by
  obtain ⟨h1, h2⟩ := store_holds flt st h now
  obtain ⟨h1', h2'⟩ := store_holds flt' st' h' now'
  have hbytes := dirBytes_unique h1.dir (h2 root hok) h1'.dir (h2' root' hok')
  obtain ⟨hom, hroot⟩ := casOmapStore_eq flt st om now
  obtain ⟨hom', hroot'⟩ := casOmapStore_eq flt' st' om' now'
  rw [hom, hom'] at hbytes
  rw [(hroot root hok).2, (hroot' root' hok').2]
  exact congrArg (fun data => toHex (objSlot (tOmap, data)).1) hbytes

end

/-- **Snapshots are canonical and persistent.**  After any two runs that end in the same mapping the
stores that succeed return the same root; a root gives back the mapping of the time of its store, in any
map and after any further run; and a store, failed or not, changes the mapping of no map. -/
theorem omap_snapshots (cs : Codecs) :
    (∀ st₁ st₂ s₁ s₂ k₁ k₂ flt₁ flt₂, Run (OmapStep cs) (Proper cs) (OmapSys.start st₁) s₁ →
      Run (OmapStep cs) (Proper cs) (OmapSys.start st₂) s₂ →
      Readable cs flt₁ s₁.st s₁.filed → Readable cs flt₂ s₂.st s₂.filed →
      omapGets cs flt₁ s₁.st (s₁.maps k₁) = omapGets cs flt₂ s₂.st (s₂.maps k₂) →
      (∀ flt flt' now now' root root', (casOmapStore flt s₁.st (s₁.maps k₁) now).1 = .ok root →
        (casOmapStore flt' s₂.st (s₂.maps k₂) now').1 = .ok root' → root = root') ∧
      ∀ now, ∃ root, (casOmapStore noFaults s₁.st (s₁.maps k₁) now).1 = .ok root) ∧
    (∀ st s s' k flt flt' flt'' now root om, Run (OmapStep cs) (Proper cs) (OmapSys.start st) s →
      Readable cs flt s.st s.filed → (casOmapStore flt' s.st (s.maps k) now).1 = .ok root →
      Readable cs flt' s.st s.filed → Run (OmapStep cs) (Proper cs) (s.call cs k flt' now .store) s' →
      Readable cs flt'' s'.st s'.filed →
      (casOmapLoad cs flt'' s'.st om root).1 = .ok ∧
        omapGets cs flt'' s'.st (casOmapLoad cs flt'' s'.st om root).2 = omapGets cs flt s.st (s.maps k)) ∧
    ∀ st s k j flt flt' flt'' now, Run (OmapStep cs) (Proper cs) (OmapSys.start st) s →
      Readable cs flt s.st s.filed → Readable cs flt' s.st s.filed →
      Readable cs flt'' (s.call cs k flt' now .store).st (s.call cs k flt' now .store).filed →
      omapGets cs flt'' (s.call cs k flt' now .store).st ((s.call cs k flt' now .store).maps j) =
        omapGets cs flt s.st (s.maps j) := by
  refine ⟨?_, ?_, ?_⟩
  · intro st₁ st₂ s₁ s₂ k₁ k₂ flt₁ flt₂ hrun₁ hrun₂ hr₁ hr₂ hsame
    obtain ⟨C, hC, -⟩ := (omapInv_proper st₁ s₁ hrun₁).holds k₁
    obtain ⟨D, hD, -⟩ := (omapInv_proper st₂ s₂ hrun₂).holds k₂
    rw [omapGets_holds hr₁ hC, omapGets_holds hr₂ hD] at hsame
    obtain rfl := mapping_injective C D hC.numbered hD.numbered (lookupResult_injective _ _ hsame)
    exact ⟨fun flt flt' now now' root root' => store_root hC hD now now' root root', fun now => store_noFaults hC now⟩
  · intro st s s' k flt flt' flt'' now root om hrun hr hok hr' hrun' hr''
    have hinv := omapInv_proper st s hrun
    obtain ⟨C, hC, -⟩ := hinv.holds k
    have hsaved := (casOmapStore_saved hC now root hok fun hf => by cases hf).mono (filed_grows _ s' hrun')
    obtain ⟨h1, h2⟩ := load_saved hr'' root hsaved om
    rw [omapGets_holds hr'' h2, omapGets_holds hr hC]
    exact ⟨h1, rfl⟩
  · intro st s k j flt flt' flt'' now hrun hr hr' hr''
    obtain ⟨C, hC, -⟩ := (omapInv_proper st s hrun).holds j
    rw [omapGets_holds hr hC]
    by_cases hj : j = k
    · subst hj
      have h1 := (store_holds flt' s.st hC now).1
      have hmap : (s.call cs j flt' now .store).maps j = (casOmapStore flt' s.st (s.maps j) now).2.2 :=
        Function.update_self ..
      rw [hmap]
      exact omapGets_holds hr'' h1
    · have hmap : (s.call cs k flt' now .store).maps j = s.maps j := Function.update_of_ne hj ..
      rw [hmap]
      exact omapGets_holds hr'' (hC.mono fun p hp => List.mem_append_left _ hp)

/-- The root of an empty map in a new depot, read back. -/
theorem store_new_empty : ∃ st' root,
    casOmapStore noFaults Store.empty casOmapNew 0 = (.ok root, st', casOmapNew) ∧
      Readable [] noFaults st' [(root, (tOmap, dirBytes []))] := by
  obtain ⟨⟨st', root⟩, hput⟩ := casPutObject_noFaults Store.empty tOmap (dirBytes []) 0
    (packable_of_small _ _ (by decide) (by decide) (by decide) (by decide))
  obtain ⟨hopen, -⟩ := (writer_open [] roundTrips_nil noFaults Store.empty st' Writer.put tOmap (dirBytes []) root 0
    hput (fresh_empty _)).1 ⟨by decide, by decide⟩
  refine ⟨st', root, ?_, fun p hp => ?_⟩
  · unfold casOmapStore casOmapNew
    simp only [storePages, hput]
  · obtain rfl := List.mem_singleton.mp hp
    exact hopen

/-- What the maps of a run say of each id. -/
theorem gets_spec (st : Store) (s : OmapSys) (h : Run (OmapStep cs) (Tame cs) (OmapSys.start st) s) (k : Nat)
    (flt : Faults) (hr : Readable cs flt s.st s.filed) : omapGets cs flt s.st (s.maps k) = lookupResult (s.spec k) := by
  obtain ⟨C, hC, hm⟩ := (omapInv_tame st s h).holds k
  rw [omapGets_holds hr hC, hm rfl]

/-- One id put once and twice, and the root of a new map loaded after a put. -/
theorem omap_snapshots_run : ∃ (s₁ s₂ s' : OmapSys) (root : Bytes),
    Run (OmapStep []) (Proper []) (OmapSys.start Store.empty) s₁ ∧
    Run (OmapStep []) (Proper []) (OmapSys.start Store.empty) s₂ ∧
    (∃ r, (casOmapStore noFaults s₁.st (s₁.maps 0) 0).1 = .ok r ∧
      (casOmapStore noFaults s₂.st (s₂.maps 0) 0).1 = .ok r) ∧
    (casOmapLoad [] noFaults s'.st (s'.maps 0) root).1 = .ok ∧
    omapGets [] noFaults s'.st (casOmapLoad [] noFaults s'.st (s'.maps 0) root).2 =
      omapGets [] noFaults Store.empty casOmapNew := by
  obtain ⟨canonical, persistent, -⟩ := omap_snapshots []
  have hread : ∀ st, Readable [] noFaults st [] := by simp [Readable]
  have hone : oneHash ≠ zeroHash := by decide
  have h0 : Run (OmapStep []) (Tame []) (OmapSys.start Store.empty) (OmapSys.start Store.empty) := .refl _
  have h1 := h0.tail (a := OmapAct.call 0 noFaults 0 (.put 5 oneHash)) rfl ⟨⟨⟨hread _, trivial⟩, hone⟩, trivial⟩
  have h2 := h1.tail (a := OmapAct.call 0 noFaults 0 (.put 5 oneHash)) rfl ⟨⟨⟨hread _, trivial⟩, hone⟩, trivial⟩
  have hweak : ∀ s a, Tame [] s a → Proper [] s a := fun _ _ ht => ht.1
  have hget₁ := gets_spec _ _ h1 0 noFaults (hread _)
  have hget₂ := gets_spec _ _ h2 0 noFaults (hread _)
  -- putting the same again makes no difference to the finite map
  have hspec : ∀ m : IdMap, Function.update (Function.update m 5 (some oneHash)) 5 (some oneHash) =
      Function.update m 5 (some oneHash) := fun m => Function.update_idem ..
  have hsame := hget₁.trans ((congrArg lookupResult (hspec fun _ => none)).symm.trans hget₂.symm)
  obtain ⟨hroots, hstores⟩ := canonical _ _ _ _ 0 0 noFaults noFaults (h1.mono hweak) (h2.mono hweak) (hread _)
    (hread _) hsame
  obtain ⟨-, hstores'⟩ := canonical _ _ _ _ 0 0 noFaults noFaults (h2.mono hweak) (h1.mono hweak) (hread _)
    (hread _) hsame.symm
  obtain ⟨r, hr⟩ := hstores 0
  obtain ⟨r', hr'⟩ := hstores' 0
  obtain rfl := hroots _ _ _ _ r r' hr hr'
  obtain ⟨st', root, hstore, hback⟩ := store_new_empty
  have hok : (casOmapStore noFaults Store.empty casOmapNew 0).1 = .ok root := congrArg Prod.fst hstore
  have hst : ((OmapSys.start Store.empty).call [] 0 noFaults 0 .store).st = st' :=
    congrArg (fun out => out.2.1) hstore
  have hfiled : ((OmapSys.start Store.empty).call [] 0 noFaults 0 .store).filed = [(root, (tOmap, dirBytes []))] :=
    congrArg storeFiles hstore
  have hr₀ : Readable [] noFaults ((OmapSys.start Store.empty).call [] 0 noFaults 0 .store).st
      ((OmapSys.start Store.empty).call [] 0 noFaults 0 .store).filed := by
    rw [hst, hfiled]
    exact hback
  have hput : Run (OmapStep []) (Proper []) ((OmapSys.start Store.empty).call [] 0 noFaults 0 .store) _ :=
    (Run.refl _).tail (a := OmapAct.call 0 noFaults 0 (.put 5 oneHash)) rfl ⟨⟨hr₀, trivial⟩, hone⟩
  have hr₁ : Readable [] noFaults (((OmapSys.start Store.empty).call [] 0 noFaults 0 .store).act []
      (.call 0 noFaults 0 (.put 5 oneHash))).st (((OmapSys.start Store.empty).call [] 0 noFaults 0 .store).act []
        (.call 0 noFaults 0 (.put 5 oneHash))).filed := by
    show Readable [] noFaults _ (_ ++ [])
    rw [List.append_nil]
    exact hr₀
  obtain ⟨hload, hgets⟩ := persistent Store.empty _ _ 0 noFaults noFaults noFaults 0 root
    ((((OmapSys.start Store.empty).call [] 0 noFaults 0 .store).act [] (.call 0 noFaults 0 (.put 5 oneHash))).maps 0)
    (h0.mono hweak) (hread _) hok (hread _) hput hr₁
  exact ⟨_, _, _, root, h1.mono hweak, h2.mono hweak, ⟨r, hr, hr'⟩, hload, hgets⟩

end Smolvfs
