import Smolvfs.GcKeep
import Smolvfs.Import
import Smolvfs.Lib.Runs
import Smolvfs.Puts
import Smolvfs.Race
import Smolvfs.RefRuns
import Smolvfs.TopicRuns

/-!
# Collection in a depot with topics

The depots that `cas_put_object`, `cas_tree_store`, `cas_tree_ref_commit` and
`cas_topic_publish` lead to, and what `cas_tree_gc` makes of their topics.

`mark_tree` goes into every root a log names, and a published record is such a root
and no tree, so that the mark passes its failure on.  `gc_serves_topics_iff`: a
collection serves the topics exactly when the mark comes upon nothing of the kind and
meets all that the heads reach; it does in every run of clean commits of closed trees
that publishes nothing.
-/

namespace Smolvfs

open Octets Numeral Walk Runs

/-! ## The depots -/

section
variable (check : SigCheck) (cs : Codecs)

/-- A call, with its time. -/
inductive DepotCall
  | put (type : CStr) (data : Bytes) (now : Int)
  | storeTree (useHtree : Bool) (dir : Dir) (now : Int)
  | commit (name root : Bytes) (comment : CStr) (timeS timeNs : Int)
  | publish (name rec : Bytes) (comment : CStr) (timeS timeNs : Int)

/-- A call that returns `CAS_OK`; what is committed is a stored tree. -/
inductive DepotStep : CasTree → DepotCall → CasTree → Prop
  | put (ct : CasTree) (type : CStr) (data : Bytes) (now : Int) (st : Store) (hash : Bytes)
      (h : casPutObject noFaults ct.store type data now = .ok (st, hash)) :
      DepotStep ct (.put type data now) ⟨st, ct.refs⟩
  | storeTree (ct : CasTree) (useHtree : Bool) (dir : Dir) (now : Int) (st : Store) (hash : Bytes)
      (h : casTreeStore noFaults ct.store useHtree dir now = .ok (st, hash)) :
      DepotStep ct (.storeTree useHtree dir now) ⟨st, ct.refs⟩
  | commit (ct : CasTree) (name root : Bytes) (comment : CStr) (timeS timeNs : Int) (refs : Refs) (dir : Dir)
      (hload : casTreeLoad cs noFaults ct.store root = .ok dir)
      (h : casTreeRefCommit ct.refs name root comment.bytes timeS timeNs = .ok refs) :
      DepotStep ct (.commit name root comment timeS timeNs) ⟨ct.store, refs⟩
  | publish (ct ct' : CasTree) (name rec : Bytes) (comment : CStr) (timeS timeNs : Int)
      (h : casTopicPublish check cs noFaults ct name rec comment.bytes timeS timeNs = (.cas .ok, ct')) :
      DepotStep ct (.publish name rec comment timeS timeNs) ct'

/-- A new depot. -/
def emptyDepot : CasTree := ⟨Store.empty, none⟩

/-! ## What a head reaches -/

/-- The head record and its chain of predecessors. -/
inductive RecordFrom (st : Store) (addr : Bytes) : Bytes → Prop
  | head : RecordFrom st addr addr
  | prev {a : Bytes} {r : Vrec} (h : RecordFrom st addr a) (hr : loadRecord check cs noFaults st a = .ok r) :
      RecordFrom st addr r.prev

/-- The records of a chain, and the directory closure of the root that each of them names. -/
inductive FromHead (st : Store) (addr : Bytes) : Bytes → Prop
  | record {a : Bytes} (h : RecordFrom check cs st addr a) : FromHead st addr a
  | tree {a hash : Bytes} {r : Vrec} (b : Bool) (h : RecordFrom check cs st addr a)
      (hr : loadRecord check cs noFaults st a = .ok r)
      (ht : Reach (treeKids cs noFaults st) (fun _ => True) [r.root] (hash, b)) : FromHead st addr hash

/-- `cas_tree_gc` returns `CAS_OK`, whatever the grace period, and every topic keeps its head and all that
could be read from there. -/
def GcServes (ct : CasTree) : Prop :=
  ∀ grace now fn,
    (casTreeGc cs noFaults ct grace now fn).1 = .ok ∧
      ∀ refname rec addr, casTopicHead check cs noFaults ct refname = .ok (rec, addr) →
        casTopicHead check cs noFaults ⟨(casTreeGc cs noFaults ct grace now fn).2.1, ct.refs⟩ refname =
          .ok (rec, addr) ∧
          ∀ hash obj, FromHead check cs ct.store addr hash → casOpenObject cs noFaults ct.store hash = .ok obj →
            casOpenObject cs noFaults (casTreeGc cs noFaults ct grace now fn).2.1 hash = .ok obj

/-- The mark comes upon no root and no directory that is there and is no tree, and what can be read from a
topic's head is in the pack, out of the sweep's sight or met by the mark. -/
structure MarkServes (ct : CasTree) : Prop where
  completes : ¬ StopsMark cs noFaults ct
  meets : ∀ refname rec addr, casTopicHead check cs noFaults ct refname = .ok (rec, addr) →
    ∀ hash obj, FromHead check cs ct.store addr hash → casOpenObject cs noFaults ct.store hash = .ok obj →
      ct.store.packed hash = true ∨ foreachLists noFaults hash = false ∨ Unshadowed cs ct hash

variable {check cs}

theorem loadRecord_congr (st st' : Store) (addr : Bytes)
    (h : casOpenObject cs noFaults st' addr = casOpenObject cs noFaults st addr) :
    loadRecord check cs noFaults st' addr = loadRecord check cs noFaults st addr := by
  unfold loadRecord
  rw [h]

/-- A head that is read stands on an object that is. -/
theorem casTopicHead_ok {ct : CasTree} {refname addr : Bytes} {rec : Vrec}
    (h : casTopicHead check cs noFaults ct refname = .ok (rec, addr)) :
    casTreeRefRead noFaults ct.refs refname = .ok addr ∧ loadRecord check cs noFaults ct.store addr = .ok rec ∧
      ∃ data, casOpenObject cs noFaults ct.store addr = .ok (tVrec, data) := by
  unfold casTopicHead at h
  split at h
  · cases h
  · next a hread =>
    cases hl : loadRecord check cs noFaults ct.store a with
    | error rc =>
      rw [hl] at h
      cases h
    | ok r =>
      rw [hl] at h
      obtain ⟨rfl, rfl⟩ := Prod.mk.inj (Except.ok.inj h)
      refine ⟨hread, hl, ?_⟩
      unfold loadRecord at hl
      split at hl
      · cases hl
      · next type data hopen =>
        split at hl
        · cases hl
        · next htype => exact ⟨data, by rw [hopen, not_not.mp htype]⟩

/-- A record at an address is no tree. -/
theorem casTreeLoad_record {st : Store} {addr data : Bytes}
    (h : casOpenObject cs noFaults st addr = .ok (tVrec, data)) :
    casTreeLoad cs noFaults st addr = .error .etype := by
  unfold casTreeLoad
  rw [h]
  simp only []
  rw [if_neg (by decide), if_neg (by decide)]

/-- **A collection serves the topics exactly when its mark does.** -/
theorem gcServes_iff (ct : CasTree) : GcServes check cs ct ↔ MarkServes check cs ct := by
  constructor
  · intro h
    obtain ⟨hok, hkept⟩ := h 0 0 fun _ _ => false
    refine ⟨fun hstop => ?_, fun refname rec addr hhead hash obj hfrom hopen => ?_⟩
    · obtain ⟨rc, hrc, hrun⟩ := gc_stopped cs noFaults ct .gc 0 0 (fun _ _ => false) hstop
      exact hrc ((congrArg Prod.fst hrun).symm.trans hok)
    · have hread := (hkept refname rec addr hhead).2 hash obj hfrom hopen
      rcases (gc_read cs ct 0 0 (fun _ _ => false) hash obj hopen hok).2 (fun _ _ => rfl) hread with hp | hs
      · exact .inl hp
      · by_cases hl : foreachLists noFaults hash = true
        · refine .inr (.inr ?_)
          by_contra hu
          exact hs ⟨hl, hu, fun _ _ hyoung => absurd hyoung.1 (by decide)⟩
        · exact .inr (.inl (by simpa using hl))
  · intro h grace now fn
    have hok : (GcCall.gc.run cs noFaults ct grace now fn).1 = .ok :=
      gc_completes cs noFaults ct .gc grace now fn h.completes id
    refine ⟨hok, fun refname rec addr hhead => ?_⟩
    have hkeep : ∀ hash obj, FromHead check cs ct.store addr hash → casOpenObject cs noFaults ct.store hash = .ok obj →
        casOpenObject cs noFaults (casTreeGc cs noFaults ct grace now fn).2.1 hash = .ok obj := by
      intro hash obj hfrom hopen
      refine (gc_read cs ct grace now fn hash obj hopen hok).1 ?_
      rcases h.meets refname rec addr hhead hash obj hfrom hopen with hp | hl | hu
      · exact .inl hp
      · refine .inr fun hs => ?_
        rw [hs.listed] at hl
        cases hl
      · exact .inr fun hs => hs.shadowed hu
    refine ⟨?_, hkeep⟩
    obtain ⟨hread, hload, data, hopen⟩ := casTopicHead_ok hhead
    have hsame := (hkeep addr _ (.record .head) hopen).trans hopen.symm
    unfold casTopicHead
    rw [hread]
    simp only [loadRecord_congr _ _ addr hsame, hload]
    rfl

/-- A head that a log gives as a root, and that no tree names first, is gone into as a tree. -/
theorem head_stopsMark (ct : CasTree) (refname addr : Bytes) (rec : Vrec)
    (hhead : casTopicHead check cs noFaults ct refname = .ok (rec, addr)) (hrep : Reports ct.refs refname addr)
    (hfirst : ¬ LeafFirst cs ct addr) : StopsMark cs noFaults ct := by
  obtain ⟨hread, -, data, hopen⟩ := casTopicHead_ok hhead
  have hroot := mem_logRoots ct.store ct.refs addr hread hrep
  have hmet : addr ∈ met (markWalk cs noFaults ct) :=
    (walk_goneInto (treeKids cs noFaults ct.store) (treeKids_bounded cs noFaults ct) (logRoots noFaults ct)
      (logRoots_short noFaults ct)).1 addr hroot
  rcases (mem_met _ _).mp hmet with hinto | hnamed
  · exact .inr ⟨addr, .etype, hinto, casTreeLoad_record hopen, by decide⟩
  · exact absurd hnamed hfirst

/-- **A published record stops the collection** then, whatever the grace period. -/
theorem published_stops (ct : CasTree) (refname addr : Bytes) (rec : Vrec)
    (hhead : casTopicHead check cs noFaults ct refname = .ok (rec, addr)) (hrep : Reports ct.refs refname addr)
    (hfirst : ¬ LeafFirst cs ct addr) (grace now : Int) (fn : Nat → Bytes → Bool) :
    (casTreeGc cs noFaults ct grace now fn).1 ≠ .ok := by
  obtain ⟨rc, hrc, hrun⟩ := gc_stopped cs noFaults ct .gc grace now fn
    (head_stopsMark ct refname addr rec hhead hrep hfirst)
  exact fun hok => hrc ((congrArg Prod.fst hrun).symm.trans hok)

end

/-! ## Runs of clean commits -/

section
variable (check : SigCheck) (cs : Codecs)

/-- A stored directory whose subdirectories are stored, all the way down. -/
inductive DirClosed (st : Store) : Bytes → Prop
  | mk (hash : Bytes) (dir : Dir) (hload : casTreeLoad cs noFaults st hash = .ok dir)
      (dirs : ∀ e ∈ dir, e.isDir = true → DirClosed st e.hash) : DirClosed st hash

/-- Nothing is published, and a commit is clean and of a closed tree. -/
def DepotCall.Plain (ct : CasTree) : DepotCall → Prop
  | .put .. => True
  | .storeTree .. => True
  | .commit _ root comment timeS timeNs => DirClosed cs ct.store root ∧ CleanLine root comment timeS timeNs
  | .publish .. => False

/-- What plain calls keep: all that logs and refs name is a closed tree, and the logs are read to their end. -/
structure PlainDepot (ct : CasTree) : Prop where
  sound : ∀ name data, refFile ct.refs (name ++ dotLog) = some data → SoundLog data
  logged : ∀ name data, refFile ct.refs (name ++ dotLog) = some data →
    ∀ e ∈ (readAll data).1, DirClosed cs ct.store e.hash
  root : ∀ name data, refFile ct.refs (name ++ dotRoot) = some data →
    ∃ root, validHash root = true ∧ data = root ++ [10] ∧ DirClosed cs ct.store root

variable {check cs}

theorem DirClosed.grow {st st' : Store} (h : Grows cs st st') {hash : Bytes} (hc : DirClosed cs st hash) :
    DirClosed cs st' hash := by
  induction hc with
  | mk hash dir hload _ ih => exact .mk hash dir (h.load hload) ih

theorem PlainDepot.grow {ct : CasTree} (h : PlainDepot cs ct) {st : Store} (hg : Grows cs ct.store st) :
    PlainDepot cs ⟨st, ct.refs⟩ where
  sound := h.sound
  logged name data hl e he := (h.logged name data hl e he).grow hg
  root name data hl := by
    obtain ⟨root, hv, hdata, hc⟩ := h.root name data hl
    exact ⟨root, hv, hdata, hc.grow hg⟩

end

section
variable {check : SigCheck} {cs : Codecs}

/-- A commit of a closed tree with a clean line keeps a depot plain. -/
theorem PlainDepot.commit {ct : CasTree} (h : PlainDepot cs ct) {refs : Refs} {name root : Bytes} {comment : CStr}
    {timeS timeNs : Int} (hc : casTreeRefCommit ct.refs name root comment.bytes timeS timeNs = .ok refs)
    (hclosed : DirClosed cs ct.store root) (hclean : CleanLine root comment timeS timeNs) :
    PlainDepot cs ⟨ct.store, refs⟩ := by
  obtain ⟨-, hv, hlog, hroot⟩ := casTreeRefCommit_files ct.refs refs name root comment.bytes timeS timeNs hc
  have hold : SoundLog ((refFile ct.refs (name ++ dotLog)).getD []) ∧
      ∀ e ∈ (readAll ((refFile ct.refs (name ++ dotLog)).getD [])).1, DirClosed cs ct.store e.hash := by
    cases hl : refFile ct.refs (name ++ dotLog) with
    | none => exact ⟨⟨rfl, .inl rfl⟩, by simp [readAll_nil]⟩
    | some data => exact ⟨h.sound name data hl, h.logged name data hl⟩
  obtain ⟨hsound, e, he, hread⟩ := readAll_clean _ root comment timeS timeNs hold.1 hv hclean
  refine ⟨?_, ?_, ?_⟩
  · intro other data hl
    by_cases hne : other = name
    · subst hne
      obtain rfl := Option.some.inj (hlog.symm.trans hl)
      exact hsound
    · exact h.sound other data ((commit_other_log hc other hne).symm.trans hl)
  · intro other data hl x hx
    by_cases hne : other = name
    · subst hne
      obtain rfl := Option.some.inj (hlog.symm.trans hl)
      rw [hread] at hx
      rcases List.mem_append.mp hx with hx | hx
      · exact hold.2 x hx
      · rw [List.mem_singleton.mp hx, he]
        exact hclosed
    · exact h.logged other data ((commit_other_log hc other hne).symm.trans hl) x hx
  · intro other data hl
    by_cases hne : other = name
    · subst hne
      exact ⟨root, hv, Option.some.inj (hl.symm.trans hroot), hclosed⟩
    · exact h.root other data ((commit_other_root hc other hne).symm.trans hl)

/-- **Every plain call keeps a depot plain.** -/
theorem plainDepot_step {ct ct' : CasTree} {c : DepotCall} (h : PlainDepot cs ct) (hs : DepotStep check cs ct c ct')
    (hp : c.Plain cs ct) : PlainDepot cs ct' := by
  cases hs with
  | put type data now st hash hput => exact h.grow (casPutObject_putAt cs hput).2.grows
  | storeTree b dir now st hash hstore => exact h.grow (casTreeStore_putAt cs hstore).2.2.grows
  | commit name root comment timeS timeNs refs dir hload hc => exact h.commit hc hp.1 hp.2
  | publish name rec comment timeS timeNs hpub => exact hp.elim

theorem plainDepot_empty : PlainDepot cs emptyDepot where
  sound _ _ h := by cases h
  logged _ _ h := by cases h
  root _ _ h := by cases h

theorem plainDepot_run {ct : CasTree} (hrun : Run (DepotStep check cs) (DepotCall.Plain cs) emptyDepot ct) :
    PlainDepot cs ct :=
  hrun.invariant _ plainDepot_empty fun _ _ _ hi hs hp => plainDepot_step hi hs hp

theorem DirClosed.loads {st : Store} {hash : Bytes} (h : DirClosed cs st hash) :
    ∃ dir, casTreeLoad cs noFaults st hash = .ok dir ∧ ∀ e ∈ dir, e.isDir = true → DirClosed cs st e.hash := by
  cases h with
  | mk _ dir hload dirs => exact ⟨dir, hload, dirs⟩

/-- In a plain depot the mark goes into closed trees only. -/
theorem PlainDepot.completes {ct : CasTree} (h : PlainDepot cs ct) : ¬ StopsMark cs noFaults ct := by
  have hall := walk_sound (treeKids cs noFaults ct.store) (fun k => k.2 = true → DirClosed cs ct.store k.1) MARK_DEPTH
    (logRoots noFaults ct) ?_ ?_
  · rintro (⟨m, -, -, hf⟩ | ⟨hash, rc, hw, hl, -⟩)
    · cases hf
    · obtain ⟨dir, hload, -⟩ := (hall _ hw rfl).loads
      rw [hload] at hl
      cases hl
  · intro n _ hn k hk hdir
    obtain ⟨dir, hload, dirs⟩ := (hn rfl).loads
    unfold treeKids at hk
    rw [hload] at hk
    obtain ⟨e, he, rfl⟩ := List.mem_map.mp hk
    exact dirs e he hdir
  · intro r hr _
    obtain ⟨name, -, hr⟩ := List.mem_flatMap.mp hr
    obtain ⟨e, he, rfl⟩ := List.mem_map.mp hr
    unfold casTreeLogRead at he
    split at he
    · cases he
    · split at he
      · cases he
      · next data hl =>
        rw [if_neg (by simp [noFaults]), logRead_noFaults name _ 0 data (Nat.le_refl _)] at he
        exact h.logged name data hl e he

/-- No ref of a plain depot has a record as its head. -/
theorem PlainDepot.no_head {ct : CasTree} (h : PlainDepot cs ct) (refname : Bytes) (rec : Vrec) (addr : Bytes) :
    casTopicHead check cs noFaults ct refname ≠ .ok (rec, addr) := by
  intro hhead
  obtain ⟨hread, -, data, hopen⟩ := casTopicHead_ok hhead
  have hn : validRefName refname = true := by
    by_contra hn
    unfold casTreeRefRead at hread
    rw [if_pos (by simpa using hn)] at hread
    cases hread
  obtain ⟨file, hfile⟩ : ∃ file, refFile ct.refs (refname ++ dotRoot) = some file := by
    by_contra hno
    rw [not_exists] at hno
    unfold casTreeRefRead at hread
    rw [if_neg (by simp [hn]), Option.eq_none_iff_forall_ne_some.mpr hno] at hread
    cases hread
  obtain ⟨root, hv, rfl, hclosed⟩ := h.root refname file hfile
  rw [casTreeRefRead_written ct.refs root hn hv hfile] at hread
  obtain rfl := Except.ok.inj hread
  obtain ⟨dir, hload, -⟩ := hclosed.loads
  rw [casTreeLoad_record hopen] at hload
  cases hload

end

/-- **Collection in a depot with topics**: in every state of every run, a collection serves the topics exactly
when its mark comes upon no root or directory that is no tree and meets what the heads reach; and it does in
every run that publishes nothing and commits closed trees with clean lines. -/
theorem gc_serves_topics_iff (check : SigCheck) (cs : Codecs) :
    (∀ ct, Run (DepotStep check cs) anyAct emptyDepot ct →
      (GcServes check cs ct ↔ MarkServes check cs ct)) ∧
    ∀ ct, Run (DepotStep check cs) (DepotCall.Plain cs) emptyDepot ct → GcServes check cs ct := by
  refine ⟨fun ct _ => gcServes_iff ct, fun ct hrun => ?_⟩
  have hplain := plainDepot_run hrun
  exact (gcServes_iff ct).mpr
    ⟨hplain.completes, fun refname rec addr hhead => absurd hhead (hplain.no_head refname rec addr)⟩

/-- Nothing is read from a new depot. -/
theorem casOpenObject_empty (cs : Codecs) (hash : Bytes) :
    ∃ rc, casOpenObject cs noFaults Store.empty hash = .error rc := by
  cases h : casOpenObject cs noFaults Store.empty hash with
  | error rc => exact ⟨rc, rfl⟩
  | ok obj =>
    have hv := casOpenObject_ok_valid cs Store.empty hash noFaults obj h
    rw [casOpenObject_of_looseCopy cs Store.empty hash hv rfl] at h
    cases h

/-- **A new depot into which any record is published cannot be collected.** -/
theorem first_publish_stops (check : SigCheck) (cs : Codecs) (name rec : Bytes) (cand : Vrec)
    (hn : validRefName name = true)
    (hd : casVrecDecode check rec = .ok cand) :
    ∃ ct, Run (DepotStep check cs) anyAct emptyDepot ct ∧
      casTopicHead check cs noFaults ct name = .ok (cand, vrecAddr rec) ∧
      ∀ grace now fn, (casTreeGc cs noFaults ct grace now fn).1 ≠ .ok := by
  have hf := fresh_empty (vrecAddr rec)
  have hlen := length_of_decoded check rec cand hd
  obtain ⟨refs, hc, hrun⟩ := casTopicPublish_no_head check cs emptyDepot name rec (lit []).bytes 0 0 cand hn hd
    (headOrNone_absent check cs Store.empty name hn)
  rw [show emptyDepot.store = Store.empty from rfl, if_pos hf] at hrun
  have hload := loadRecord_stored check cs Store.empty rec 0 hlen hf
  obtain ⟨-, hv, hlog, -⟩ := casTreeRefCommit_files _ _ _ _ _ _ _ hc
  have hhead : casTopicHead check cs noFaults
      ⟨Store.empty.setLoose (vrecAddr rec) ⟨rawFile (tVrec, rec), 0⟩, refs⟩ name = .ok (cand, vrecAddr rec) := by
    unfold casTopicHead
    rw [casTreeRefRead_commit _ _ _ _ _ _ hc]
    simp only [hload, hd, Except.map]
  refine ⟨_, (Run.refl _).tail (.publish emptyDepot _ name rec (lit []) 0 0 hrun) trivial, hhead, ?_⟩
  refine published_stops _ name _ cand hhead ?_ ?_
  · -- the one line of the log gives the record
    have hclean : CleanLine (vrecAddr rec) (lit []) 0 0 := by
      refine ⟨by decide, ?_⟩
      have hl := ((validHash_iff _).mp hv).1
      simp only [logLine, List.length_append, List.length_cons, hl]
      decide
    obtain ⟨-, e, he, hread⟩ := readAll_clean [] (vrecAddr rec) (lit []) 0 0 ⟨rfl, .inl rfl⟩ hv hclean
    have hnone : (refFile emptyDepot.refs (name ++ dotLog)).getD [] = [] := rfl
    rw [hnone] at hlog
    unfold Reports
    rw [casTreeLogRead_noFaults refs name _ hn hlog, hread]
    exact List.mem_map.mpr ⟨e, List.mem_append.mpr (.inr (List.mem_singleton.mpr rfl)), he⟩
  · -- nothing in the depot is a tree that could name it
    obtain ⟨-, -, data, hopen⟩ := casTopicHead_ok hhead
    have hkids : ∀ hash, treeKids cs noFaults (Store.empty.setLoose (vrecAddr rec) ⟨rawFile (tVrec, rec), 0⟩) hash =
      [] := by
      intro hash
      have hno : ∃ rc, casTreeLoad cs noFaults (Store.empty.setLoose (vrecAddr rec) ⟨rawFile (tVrec, rec), 0⟩) hash =
          .error rc := by
        by_cases hh : hash = vrecAddr rec
        · exact ⟨_, by rw [hh]; exact casTreeLoad_record hopen⟩
        · unfold casTreeLoad
          obtain ⟨rc, hrc⟩ := casOpenObject_empty cs hash
          rw [casOpenObject_setLoose_ne cs noFaults _ _ hash _ hh, hrc]
          exact ⟨rc, rfl⟩
      obtain ⟨rc, hno⟩ := hno
      unfold treeKids
      rw [hno]
    intro hleaf
    have hall := walk_sound (treeKids cs noFaults _) (fun k => k.2 = true) MARK_DEPTH
      (logRoots noFaults ⟨Store.empty.setLoose (vrecAddr rec) ⟨rawFile (tVrec, rec), 0⟩, refs⟩)
      (fun n _ _ k hk => by rw [hkids n] at hk; cases hk) (fun _ _ => rfl)
    cases hall _ hleaf

theorem one_topic_not_collected :
    ∃ ct rec, Run (DepotStep anySig []) anyAct emptyDepot ct ∧
      casTopicHead anySig [] noFaults ct topicT = .ok (rec, vrecAddr firstRec) ∧
      ∀ grace now fn, (casTreeGc [] noFaults ct grace now fn).1 ≠ .ok := by
  obtain ⟨rec, hd, -⟩ := firstRec_decodes
  obtain ⟨ct, hrun, hhead, hgc⟩ := first_publish_stops anySig [] topicT firstRec rec (by decide) hd
  exact ⟨ct, rec, hrun, hhead, hgc⟩

end Smolvfs
