import Smolvfs.Lib.Collecting
import Smolvfs.Lib.Runs
import Smolvfs.Refs
import Smolvfs.TreeStore

/-!
# The incremental downloader

The walk of `examples/cas-fetch.c` over loose objects: a stack of addresses, each
dropped when the depot has it, else fetched, put in place, checked, and its
entries pushed.  A run can be given up after any of these steps; the next one
begins again from a root, on the depot as it was left.

The origin answers an address with the file it has there or with nothing, and
what it answers is checked; it may serve whatever it likes.

* `fetch_complete_iff`: a run that commits its ref has everything below the root
  in the depot exactly when, as it began, no directory of the depot hid an object
  that was missing;
* `fetch_resumed_incomplete`: a run given up after its root was stored leaves such
  a directory, and the next run commits at once.
-/

namespace Smolvfs

open Octets Numeral Collecting Runs

/-! ## The steps of `main` -/

/-- `parse_ref`: the first 64 hex digits of a response, after blanks. -/
def parseRef (b : Bytes) : Option Bytes :=
  let rest := skipSpace b
  if rest.length < CAS_HASH_HEX then none
  else if ((rest.take CAS_HASH_HEX).all fun c => (hexVal c).isSome) = false then none
  else some (rest.take CAS_HASH_HEX)

/-- The check of `store_object`: an htree is left to the tree layer. -/
def fetchVerify (cs : Codecs) (flt : Faults) (st : Store) (hash : Bytes) : FsckStatus :=
  match casFsckObject cs flt st hash with
  | .reencoded => casTreeVerify cs flt st hash
  | s => s

/-- The addresses a stored object has pushed, in the order of its entries. -/
def fetchKids (cs : Codecs) (flt : Faults) (st : Store) (hash : Bytes) : List Bytes :=
  match casOpenObject cs flt st hash with
  | .error _ => []
  | .ok (type, _) =>
    if type = tTree ∨ type = tHtree then
      match casTreeLoad cs flt st hash with
      | .error _ => []
      | .ok dir => dir.map fun e => e.hash
    else []

/-- What `cas_tree_ref_commit` is given to say. -/
def fetchComment : Bytes :=
  (lit ['d', 'o', 'w', 'n', 'l', 'o', 'a', 'd', 'e', 'd', ' ', 'v', 'i', 'a', ' ', 'c', 'a', 's', '-', 'f', 'e', 't',
    'c', 'h']).bytes

/-- A run: the stack with its top first, the object put in place and not yet checked, and, for the record, the
origin and the depot it began with. -/
structure FetchRun where
  ref : Bytes
  root : Bytes
  queue : List Bytes
  placed : Option Bytes
  origin : Bytes → Option Bytes
  start : Store

/-- The depot, and the run that is under way. -/
structure FetchSys where
  ct : CasTree
  run : Option FetchRun

def CasTree.withStore (ct : CasTree) (st : Store) : CasTree := ⟨st, ct.refs⟩

inductive FetchAct
  | begin (ref response : Bytes) (origin : Bytes → Option Bytes)
  | skip
  | place (now : Int)
  | check
  | reject
  | stop
  | commit (timeS timeNs : Int)
  | other (ct : CasTree)

inductive FetchStep (cs : Codecs) : FetchSys → FetchAct → FetchSys → Prop
  /-- The ref was fetched. -/
  | begin {ct : CasTree} {ref response root : Bytes} {origin : Bytes → Option Bytes}
    (hroot : parseRef response = some root) :
    FetchStep cs ⟨ct, none⟩ (.begin ref response origin)
      ⟨ct, some ⟨ref, root, [root], none, origin, ct.store⟩⟩
  /-- The top of the stack is in the depot. -/
  | skip {ct : CasTree} {r : FetchRun} {hash : Bytes} {queue : List Bytes} (hq : r.queue = hash :: queue)
    (hp : r.placed = none) (he : casExists ct.store hash = true) :
    FetchStep cs ⟨ct, some r⟩ .skip ⟨ct, some { r with queue := queue }⟩
  /-- It is not, was fetched and renamed into place. -/
  | place {ct : CasTree} {r : FetchRun} {hash file : Bytes} {queue : List Bytes} {now : Int}
    (hq : r.queue = hash :: queue) (hp : r.placed = none) (he : casExists ct.store hash = false)
    (ho : r.origin hash = some file) :
    FetchStep cs ⟨ct, some r⟩ (.place now)
      ⟨ct.withStore (ct.store.setLoose hash ⟨file, now⟩), some { r with queue := queue, placed := some hash }⟩
  /-- The object in place is right; its entries are pushed, the last one on top. -/
  | check {ct : CasTree} {r : FetchRun} {hash : Bytes} (hp : r.placed = some hash)
    (hv : fetchVerify cs noFaults ct.store hash = .ok) :
    FetchStep cs ⟨ct, some r⟩ .check
      ⟨ct, some { r with placed := none, queue := (fetchKids cs noFaults ct.store hash).reverse ++ r.queue }⟩
  /-- It is wrong, and unlinked. -/
  | reject {ct : CasTree} {r : FetchRun} {hash : Bytes} (hp : r.placed = some hash)
    (hv : fetchVerify cs noFaults ct.store hash ≠ .ok) :
    FetchStep cs ⟨ct, some r⟩ .reject
      ⟨ct.withStore { ct.store with loose := ct.store.loose.erase hash }, none⟩
  /-- A fetch or a write fails, or the program is interrupted. -/
  | stop {ct : CasTree} {r : FetchRun} : FetchStep cs ⟨ct, some r⟩ .stop ⟨ct, none⟩
  /-- The stack is empty, and the ref is recorded. -/
  | commit {ct : CasTree} {r : FetchRun} {timeS timeNs : Int} {refs : Refs} (hq : r.queue = [])
    (hp : r.placed = none)
    (hc : casTreeRefCommit ct.refs r.ref r.root fetchComment timeS timeNs = .ok refs) :
    FetchStep cs ⟨ct, some r⟩ (.commit timeS timeNs) ⟨⟨ct.store, refs⟩, none⟩
  /-- Between runs the depot is anyone's. -/
  | other {ct ct' : CasTree} : FetchStep cs ⟨ct, none⟩ (.other ct') ⟨ct', none⟩

/-! ## What the run sees -/

/-- The object is there. -/
def Stored (st : Store) (hash : Bytes) : Prop := casExists st hash = true

/-- The entries of an object, as a run on the depot `st` comes to see them: those of the depot's object, or of
the file the origin has. -/
def servedKids (cs : Codecs) (st : Store) (origin : Bytes → Option Bytes) (hash : Bytes) : List Bytes :=
  if casExists st hash = true then fetchKids cs noFaults st hash
  else
    match origin hash with
    | some file => fetchKids cs noFaults (st.setLoose hash ⟨file, 0⟩) hash
    | none => []

/-- As the run began, no directory of the depot hid an object that was missing. -/
def FetchRun.Open (cs : Codecs) (r : FetchRun) : Prop :=
  NothingHidden (servedKids cs r.start r.origin) (Stored r.start) r.root

/-- Everything below the root is there. -/
def FetchComplete (cs : Codecs) (st : Store) (root : Bytes) : Prop :=
  ∀ hash, Reaches (fetchKids cs noFaults st) root hash → Stored st hash

variable {cs : Codecs}

theorem fetchKids_congr (st st' : Store) (hash : Bytes)
    (h : casOpenObject cs noFaults st' hash = casOpenObject cs noFaults st hash) :
    fetchKids cs noFaults st' hash = fetchKids cs noFaults st hash := by
  unfold fetchKids casTreeLoad
  rw [h]

theorem stored_congr (st st' : Store) (hash : Bytes) (hp : st'.pack = st.pack)
    (hl : st'.loose.lookup hash = st.loose.lookup hash) : casExists st' hash = casExists st hash := by
  unfold casExists Store.packed Store.hasLoose
  rw [hp, hl]

theorem fetchKids_absent (st : Store) (hash : Bytes) (h : ¬ Stored st hash) : fetchKids cs noFaults st hash = [] := by
  unfold fetchKids
  cases hopen : casOpenObject cs noFaults st hash with
  | error rc => rfl
  | ok obj =>
    exfalso
    by_cases hv : validHash hash = true
    · obtain ⟨hl, hp⟩ := (fresh_iff st hash hv).mpr (by simpa [Stored] using h)
      exact casOpenObject_absent cs st hash hl hp obj hopen
    · unfold casOpenObject at hopen
      rw [if_pos (by simpa using hv)] at hopen
      cases hopen

theorem stored_setLoose (st : Store) (hash other : Bytes) (f : LooseFile) (hv : validHash hash = true) :
    Stored (st.setLoose hash f) other ↔ Stored st other ∨ other = hash := by
  by_cases hne : other = hash
  · subst hne
    simp [Stored, casExists, Store.hasLoose, hv]
  · unfold Stored
    rw [stored_congr st (st.setLoose hash f) other rfl (setLoose_lookup_ne st hash other f hne)]
    simp [hne]

/-- What passes the check has an address that a name can have. -/
theorem fetchVerify_valid (st : Store) (hash : Bytes) (h : fetchVerify cs noFaults st hash = .ok) :
    validHash hash = true := by
  by_contra hv
  unfold fetchVerify casFsckObject at h
  rw [if_pos (by simpa using hv)] at h
  cases h

/-! ## The invariant of a run -/

/-- Where a file of the depot comes from: it was there, or the origin served it for a missing object. -/
def ComesFrom (r : FetchRun) (st : Store) (hash : Bytes) : Prop :=
  st.loose.lookup hash = r.start.loose.lookup hash ∨
    (casExists r.start hash = false ∧ ∃ file now, r.origin hash = some file ∧
      st.loose.lookup hash = some ⟨file, now⟩)

structure FetchInv (cs : Codecs) (st : Store) (r : FetchRun) : Prop where
  pack : st.pack = r.start.pack
  files : ∀ hash, ComesFrom r st hash
  walk : r.placed = none → Frontier (servedKids cs r.start r.origin) (Stored r.start) r.root (Stored st) r.queue
  placed : ∀ hash, r.placed = some hash → validHash hash = true →
    ∃ got, Frontier (servedKids cs r.start r.origin) (Stored r.start) r.root got (hash :: r.queue) ∧ ¬ got hash ∧
      ∀ other, Stored st other ↔ got other ∨ other = hash

/-- A stored object has the entries the run was going to see. -/
theorem FetchInv.kids {st : Store} {r : FetchRun} (h : FetchInv cs st r) (hash : Bytes) (hs : Stored st hash) :
    fetchKids cs noFaults st hash = servedKids cs r.start r.origin hash := by
  unfold servedKids
  rcases h.files hash with hl | ⟨habs, file, now, ho, hl⟩
  · have hstart : casExists r.start hash = true := (stored_congr r.start st hash h.pack hl).symm.trans hs
    rw [if_pos hstart]
    exact fetchKids_congr _ _ _ (casOpenObject_congr cs r.start hash noFaults st h.pack hl)
  · have hv : validHash hash = true := by
      unfold Stored casExists at hs
      exact (Bool.and_eq_true_iff.mp hs).1
    obtain ⟨-, hp⟩ := (fresh_iff r.start hash hv).mpr habs
    rw [if_neg (by simp [habs]), ho]
    apply fetchKids_congr
    have hp' : st.packed hash = false := by
      unfold Store.packed at hp ⊢
      rw [h.pack]
      exact hp
    rw [casOpenObject_of_loose cs st hash _ hv hp' hl,
      casOpenObject_of_loose cs (r.start.setLoose hash ⟨file, 0⟩) hash ⟨file, 0⟩ hv hp
        (setLoose_lookup_self r.start hash _)]

theorem fetchInv_begin (ct : CasTree) (ref root : Bytes) (origin : Bytes → Option Bytes) :
    FetchInv cs ct.store ⟨ref, root, [root], none, origin, ct.store⟩ where
  pack := rfl
  files := fun _ => Or.inl rfl
  walk := fun _ => frontier_start
  placed := fun hash h => by cases h

/-- **One step** of a run keeps its invariant. -/
theorem fetchInv_step (s s' : FetchSys) (a : FetchAct) (hs : FetchStep cs s a s')
    (h : ∀ r, s.run = some r → FetchInv cs s.ct.store r) :
    ∀ r, s'.run = some r → FetchInv cs s'.ct.store r := by
  cases hs with
  | begin hroot =>
    rintro r ⟨⟩
    exact fetchInv_begin _ _ _ _
  | @skip ct r hash queue hq hp he =>
    rintro r' ⟨⟩
    have hi := h r rfl
    have hwalk := hi.walk hp
    rw [hq] at hwalk
    exact ⟨hi.pack, hi.files, fun _ => hwalk.drop he, fun other ho => (by rw [hp] at ho; cases ho)⟩
  | @place ct r hash file queue now hq hp he ho =>
    rintro r' ⟨⟩
    have hi := h r rfl
    have hwalk := hi.walk hp
    rw [hq] at hwalk
    refine ⟨hi.pack, ?_, fun hn => (by cases hn), ?_⟩
    · intro other
      by_cases hne : other = hash
      · subst hne
        have hstart : casExists r.start other = false := by
          rcases hi.files other with h1 | ⟨h1, -⟩
          · exact (stored_congr r.start ct.store other hi.pack h1).symm.trans he
          · exact h1
        exact Or.inr ⟨hstart, file, now, ho, setLoose_lookup_self ct.store other _⟩
      · have hl : (ct.store.setLoose hash ⟨file, now⟩).loose.lookup other = ct.store.loose.lookup other :=
          setLoose_lookup_ne ct.store hash other _ hne
        rcases hi.files other with h1 | ⟨h1, f, t, h2, h3⟩
        · exact Or.inl (hl.trans h1)
        · exact Or.inr ⟨h1, f, t, h2, hl.trans h3⟩
    · rintro other ⟨⟩ hv
      exact ⟨Stored ct.store, hwalk, by simp [Stored, he], fun k => stored_setLoose ct.store hash k _ hv⟩
  | @check ct r hash hp hv =>
    rintro r' ⟨⟩
    have hi := h r rfl
    have hvalid := fetchVerify_valid ct.store hash hv
    obtain ⟨got, hfront, hno, hgot⟩ := hi.placed hash hp hvalid
    refine ⟨hi.pack, hi.files, fun _ => ?_, fun other ho => (by cases ho)⟩
    have htake := hfront.take hno (fetchKids cs noFaults ct.store hash).reverse (by
      intro k
      rw [List.mem_reverse, hi.kids hash ((hgot hash).mpr (Or.inr rfl))])
    have heq : (fun m => got m ∨ m = hash) = Stored ct.store := funext fun m => propext (hgot m).symm
    rw [heq] at htake
    exact htake
  | reject hp hv => rintro r ⟨⟩
  | stop => rintro r ⟨⟩
  | commit hq hp hc => rintro r ⟨⟩
  | other => rintro r ⟨⟩

theorem fetchInv_run (ct : CasTree) (s : FetchSys) (h : Run (FetchStep cs) anyAct ⟨ct, none⟩ s) :
    ∀ r, s.run = some r → FetchInv cs s.ct.store r :=
  h.invariant (fun s => ∀ r, s.run = some r → FetchInv cs s.ct.store r) (by rintro r ⟨⟩)
    fun s a s' hi hs _ => fetchInv_step s s' a hs hi

/-! ## The result -/

/-- **A downloaded ref is complete** exactly when nothing was hidden as the run that commits it began, whatever
runs were given up before, wherever they were, and whatever the origin serves. -/
theorem fetch_complete_iff (cs : Codecs) (ct : CasTree) (s s' : FetchSys) (r : FetchRun) (timeS timeNs : Int)
    (h : Run (FetchStep cs) anyAct ⟨ct, none⟩ s) (hr : s.run = some r)
    (hc : FetchStep cs s (.commit timeS timeNs) s') : FetchComplete cs s'.ct.store r.root ↔ r.Open cs := by
  have hi := fetchInv_run ct s h r hr
  cases hc with
  | commit hq hp hc =>
    obtain rfl := Option.some.inj hr
    have hwalk := hi.walk hp
    rw [hq] at hwalk
    exact hwalk.done_iff _ hi.kids (fetchKids_absent _)

/-- On a depot in which every directory has its entries nothing is hidden. -/
theorem open_of_closed (r : FetchRun)
    (h : ∀ hash, Stored r.start hash → ∀ k ∈ fetchKids cs noFaults r.start hash, Stored r.start k) :
    r.Open cs := by
  apply nothingHidden_of_closed
  intro hash hs k hk
  have hs' : casExists r.start hash = true := hs
  unfold servedKids at hk
  rw [if_pos hs'] at hk
  exact h hash hs k hk

/-! ## A resumed run -/

theorem parseRef_valid (hash : Bytes) (hv : validHash hash = true) : parseRef hash = some hash := by
  obtain ⟨hlen, hhex⟩ := (validHash_iff hash).mp hv
  have hsk : skipSpace hash = hash := by
    unfold skipSpace
    cases hash with
    | nil => rfl
    | cons c rest =>
      rw [List.dropWhile_cons_of_neg]
      simp [(hexVal_not_space c (hhex c (by simp))).1]
  have htake : hash.take CAS_HASH_HEX = hash := List.take_of_length_le (Nat.le_of_eq hlen)
  have hall : (hash.all fun c => (hexVal c).isSome) = true := List.all_eq_true.mpr hhex
  unfold parseRef
  dsimp only
  rw [hsk, htake, hall, if_neg (by rw [hlen]; decide), if_neg (by simp)]

section
variable (obj : Object) (hs : Storable obj)

/-- A new depot into which an object was fetched. -/
def oneFetched : Store := Store.empty.setLoose (toHex (objBin obj)) ⟨rawFile obj, 0⟩

/-- An origin that has one object. -/
def oneOrigin (hash : Bytes) : Option Bytes := if hash = toHex (objBin obj) then some (rawFile obj) else none

theorem validHash_objBin : validHash (toHex (objBin obj)) = true := validHash_digest2 _ _

include hs

theorem open_oneFetched : casOpenObject cs noFaults (oneFetched obj) (toHex (objBin obj)) = .ok obj := by
  have hl : (oneFetched obj).loose.lookup (toHex (objBin obj)) = some ⟨rawFile obj, 0⟩ := setLoose_lookup_self _ _ _
  rw [casOpenObject_of_loose cs (oneFetched obj) _ _ (validHash_objBin obj) rfl hl]
  exact looseRead_rawFile obj hs cs

theorem verify_oneFetched (ht : casTypeIsReencoded obj.1 = false) :
    fetchVerify cs noFaults (oneFetched obj) (toHex (objBin obj)) = .ok := by
  have hcopy : looseCopy cs (oneFetched obj) (toHex (objBin obj)) = .ok (obj.1, obj.2) :=
    looseCopy_rawFile obj hs cs _ _ 0 (setLoose_lookup_self _ _ _)
  have hfsck : casFsckObject cs noFaults (oneFetched obj) (toHex (objBin obj)) = .ok := by
    rw [casFsckObject_of_looseCopy cs _ _ (validHash_objBin obj) obj.1 obj.2 hcopy, ht]
    exact fsckDigest_of_header obj.1 obj.2 _ hs.header
  unfold fetchVerify
  rw [hfsck]

/-- A run that has fetched its root, before its entries are looked at. -/
theorem run_oneFetched (ht : casTypeIsReencoded obj.1 = false) (ref : Bytes) :
    Run (FetchStep cs) anyAct ⟨⟨Store.empty, none⟩, none⟩ ⟨⟨oneFetched obj, none⟩,
      some ⟨ref, toHex (objBin obj), (fetchKids cs noFaults (oneFetched obj) (toHex (objBin obj))).reverse, none,
        oneOrigin obj, Store.empty⟩⟩ := by
  have habs : casExists Store.empty (toHex (objBin obj)) = false :=
    (fresh_iff _ _ (validHash_objBin obj)).mp (fresh_empty _)
  have hbegin : FetchStep cs ⟨⟨Store.empty, none⟩, none⟩ (.begin ref (toHex (objBin obj)) (oneOrigin obj)) _ :=
    .begin (parseRef_valid _ (validHash_objBin obj))
  have horigin : oneOrigin obj (toHex (objBin obj)) = some (rawFile obj) := if_pos rfl
  have hplace : FetchStep cs
      ⟨⟨Store.empty, none⟩,
        some ⟨ref, toHex (objBin obj), [toHex (objBin obj)], none, oneOrigin obj, Store.empty⟩⟩ (.place 0)
      ⟨⟨oneFetched obj, none⟩,
        some ⟨ref, toHex (objBin obj), [], some (toHex (objBin obj)), oneOrigin obj, Store.empty⟩⟩ :=
    .place rfl rfl habs horigin
  have hfetched : Run (FetchStep cs) anyAct ⟨⟨Store.empty, none⟩, none⟩ ⟨⟨oneFetched obj, none⟩,
      some ⟨ref, toHex (objBin obj), [], some (toHex (objBin obj)), oneOrigin obj, Store.empty⟩⟩ :=
    ((Run.refl _).tail hbegin trivial).tail hplace trivial
  have hchecked := hfetched.tail (.check rfl (verify_oneFetched obj hs ht)) trivial
  rw [List.append_nil] at hchecked
  exact hchecked

/-- That run given up, and another one that finds the root there. -/
theorem run_resumed (ht : casTypeIsReencoded obj.1 = false) (ref : Bytes) :
    Run (FetchStep cs) anyAct ⟨⟨Store.empty, none⟩, none⟩ ⟨⟨oneFetched obj, none⟩,
      some ⟨ref, toHex (objBin obj), [], none, oneOrigin obj, oneFetched obj⟩⟩ := by
  have hstored : casExists (oneFetched obj) (toHex (objBin obj)) = true :=
    (stored_setLoose Store.empty _ _ _ (validHash_objBin obj)).mpr (Or.inr rfl)
  have hstopped : Run (FetchStep cs) anyAct ⟨⟨Store.empty, none⟩, none⟩ ⟨⟨oneFetched obj, none⟩, none⟩ :=
    (run_oneFetched obj hs ht ref).tail .stop trivial
  have hbegin : FetchStep cs ⟨⟨oneFetched obj, none⟩, none⟩
      (.begin ref (toHex (objBin obj)) (oneOrigin obj)) _ :=
    .begin (parseRef_valid _ (validHash_objBin obj))
  exact (hstopped.tail hbegin trivial).tail (.skip rfl rfl hstored) trivial

end

theorem commit_runs (ct : CasTree) (ref root : Bytes) (origin : Bytes → Option Bytes) (start : Store)
    (hname : validRefName ref = true) (hv : validHash root = true) :
    ∃ refs, FetchStep cs ⟨ct, some ⟨ref, root, [], none, origin, start⟩⟩ (.commit 0 0)
      ⟨⟨ct.store, refs⟩, none⟩ := by
  obtain ⟨refs, hrefs⟩ : ∃ refs, casTreeRefCommit ct.refs ref root fetchComment 0 0 = .ok refs := by
    unfold casTreeRefCommit
    rw [if_neg (by simp [hname, hv])]
    exact ⟨_, rfl⟩
  exact ⟨refs, .commit rfl rfl hrefs⟩

theorem kids_oneFetched (dir : Dir) (hs : Storable (treeForm false dir)) (hp : ∀ e ∈ dir, e.Printable)
    (ho : NamesAscending dir) :
    fetchKids cs noFaults (oneFetched (treeForm false dir)) (toHex (objBin (treeForm false dir))) =
      dir.map fun e => e.hash := by
  have hopen := @open_oneFetched cs _ hs
  have hload : casTreeLoad cs noFaults (oneFetched (treeForm false dir)) (toHex (objBin (treeForm false dir))) =
      .ok dir := by
    unfold casTreeLoad
    rw [hopen]
    exact treeTextLoad_serialize dir hp ho
  unfold fetchKids
  rw [hopen, hload]
  rfl

/-- A new depot downloads an empty directory. -/
theorem fetch_complete_emptyDir : ∃ s s', Run (FetchStep []) anyAct ⟨⟨Store.empty, none⟩, none⟩ s ∧
    FetchStep [] s (.commit 0 0) s' ∧ FetchComplete [] s'.ct.store (toHex (objBin (treeForm false []))) := by
  have hrun := @run_oneFetched [] (treeForm false []) (storable_emptyDir false) (by decide) [109]
  rw [@kids_oneFetched [] [] (storable_emptyDir false) (by simp) List.Pairwise.nil] at hrun
  obtain ⟨refs, hcommit⟩ := @commit_runs [] ⟨oneFetched (treeForm false []), none⟩ [109] _
    (oneOrigin (treeForm false [])) Store.empty (by decide) (validHash_objBin (treeForm false []))
  refine ⟨_, _, hrun, hcommit, (fetch_complete_iff [] _ _ _ _ 0 0 hrun rfl hcommit).mpr ?_⟩
  apply open_of_closed
  intro hash hs
  have habs : casExists Store.empty hash = false := by
    unfold casExists
    simp [Store.empty, Store.packed, Store.hasLoose]
  exact absurd hs (by simp [Stored, habs])

/-- A directory with one file is fetched, the run is given up, and the next one commits without the file. -/
theorem fetch_resumed_incomplete : ∃ s s' root, Run (FetchStep []) anyAct ⟨⟨Store.empty, none⟩, none⟩ s ∧
    FetchStep [] s (.commit 0 0) s' ∧ s.run.map FetchRun.root = some root ∧
    zeroHash ∈ fetchKids [] noFaults s'.ct.store root ∧ casExists s'.ct.store zeroHash = false ∧
    ¬ FetchComplete [] s'.ct.store root := by
  have hs : Storable (treeForm false [fileA]) :=
    storable_treeForm false [fileA] (by decide +kernel) length_build_fileA
  have hrun := @run_resumed [] (treeForm false [fileA]) hs (by decide) [109]
  have hkids := @kids_oneFetched [] [fileA] hs fileA_printable fileA_ascending
  have hne : zeroHash ≠ toHex (objBin (treeForm false [fileA])) := by decide +kernel
  obtain ⟨refs, hcommit⟩ := @commit_runs [] ⟨oneFetched (treeForm false [fileA]), none⟩ [109] _
    (oneOrigin (treeForm false [fileA])) (oneFetched (treeForm false [fileA])) (by decide)
    (validHash_objBin (treeForm false [fileA]))
  have hkid : zeroHash ∈ fetchKids [] noFaults (oneFetched (treeForm false [fileA]))
      (toHex (objBin (treeForm false [fileA]))) := by
    rw [hkids]
    exact List.mem_singleton.mpr rfl
  have habs : ¬ Stored (oneFetched (treeForm false [fileA])) zeroHash := by
    intro h
    rcases (stored_setLoose Store.empty _ _ _ (validHash_objBin _)).mp h with h | h
    · have habs : casExists Store.empty zeroHash = false := (fresh_iff _ _ (by decide)).mp (fresh_empty _)
      exact absurd h (Bool.eq_false_iff.mp habs)
    · exact hne h
  refine ⟨_, _, _, hrun, hcommit, rfl, hkid, Bool.eq_false_iff.mpr habs, ?_⟩
  intro hall
  exact habs (hall zeroHash (.kid .root hkid))

end Smolvfs
