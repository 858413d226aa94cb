import Smolvfs.KeyFile
import Smolvfs.RefLog
import Smolvfs.TopicRuns
import Smolvfs.Vchain
import Smolvfs.VrecForm
import Smolvfs.Puts
import Smolvfs.Lib.Runs

/-!
# Publishing from the command line

`cmd_publish` and `cmd_topic_log` of `castool.c`: a publish signs a root by the key in a
file, with the number and the predecessor its topic's head gives; the log of a topic is
printed from the head down.

`topic_log_lists`: after any run of publishes, other puts and commits, truncations and
collections, the topic's log prints what was published, the newest first, from 1 on for
as long as the topic's ref log names it.
-/

namespace Smolvfs

open Octets Numeral Picking Runs

/-! ## The commands -/

/-- A signing backend that makes key pairs. -/
structure KeyBackend extends SignBackend where
  keyPair : KeyPair

/-- It checks what it signs, and the public key of a pair is that of the secret key. -/
structure KeyBackend.Sound (b : KeyBackend) : Prop extends b.toSignBackend.Checks where
  pair : ∀ seed sk pk, b.keyPair seed = .ok (sk, pk) → pk = b.pubkey sk

/-- What `cmd_publish` finds outside of the depot, with `time(NULL)` and the time of the commit. -/
structure TopicHost where
  files : HostFiles
  load : KeyloadFaults
  time : BitVec 64
  timeS : BitVec 64
  timeNs : BitVec 32

/-- The leading options of `cmd_publish`: the label, and the other arguments. -/
def publishArgs (label : Bytes) : List Bytes → Option (Bytes × List Bytes)
  | [] => some (label, [])
  | [arg] => if arg.head? = some 45 then none else some (label, [arg])
  | arg :: next :: rest =>
    if arg.head? = some 45 then
      if arg = (lit ['-', 'l']).bytes then publishArgs next rest else none
    else some (label, arg :: next :: rest)

/-- The record that follows on the head, of the root. -/
def nextVrec (pk root : Bytes) (time : BitVec 64) : Option (Vrec × Bytes) → Vrec
  | none => ⟨List.replicate CAS_HASH_LEN 0, pk, 1, time, root, []⟩
  | some (head, addr) => ⟨List.replicate CAS_HASH_LEN 0, pk, head.seq + 1, time, root, addr⟩

/-- A record to be published: the ref, the root as it was given, and the octets. -/
structure Draft where
  refname : Bytes
  root : Bytes
  record : Bytes

section
variable (b : KeyBackend) (cs : Codecs) (host : TopicHost) (ct : CasTree) (argv : List Bytes)

/-- `cmd_publish` up to `cas_vrec_encode`. -/
def publishDraft : Option Draft :=
  match publishArgs [] argv with
  | some (label, keyfile :: root :: _) =>
    match casSignKeyLoad (some b.keyPair) host.load host.files keyfile with
    | .error _ => none
    | .ok (sk, pk) =>
      match casTopicRefName topicNameSize (casSignTopicId pk) label with
      | .error _ => none
      | .ok refname =>
        match headOrNone (casTopicHead b.check cs noFaults ct refname) with
        | .error _ => none
        | .ok cur =>
          if validHash root = false then none
          else if casExists ct.store root = false then none
          else
            match casVrecEncode (b.sign sk) (nextVrec pk root host.time cur) with
            | .error _ => none
            | .ok record => some ⟨refname, root, record⟩
  | _ => none

/-- `cmd_publish`: the exit status, what is printed, and the depot. -/
def cmdPublish : Nat × Bytes × CasTree :=
  match publishDraft b cs host ct argv with
  | none => (1, [], ct)
  | some d =>
    let r := casTopicPublish b.check cs noFaults ct d.refname d.record
      (lit ['p', 'u', 'b', 'l', 'i', 's', 'h']).bytes host.timeS.toInt host.timeNs.toInt
    if r.1 ≠ .cas .ok then (1, [], r.2)
    else (0, (casVrecAddress d.record).toOption.getD [] ++ [10], r.2)

/-- `print_chain_entry` -/
def printChainEntry (v : Visit) : Bytes :=
  printNat 10 v.1.seq.toNat ++ 32 :: (v.2 ++ 32 :: (v.1.root ++ [10]))

/-- `cmd_topic_log`: the exit status and what is printed; none is out of fuel. -/
def cmdTopicLog (fuel : Nat) : Option (Nat × Bytes) :=
  match argv with
  | [] => some (1, [])
  | refname :: _ =>
    match casTopicHead b.check cs noFaults ct refname with
    | .error _ => some (1, [])
    | .ok (_, addr) =>
      (casVchainWalk b.check cs noFaults ct.store keepsWalking fuel addr 0).map fun (rc, visited) =>
        (if rc = .eincomplete ∨ rc = .sign (.cas .ok) then 0 else 1, visited.flatMap printChainEntry)

end

/-! ## Records that are published -/

/-- What is published of a topic: the record, the root as it was given, and the time of the commit. -/
structure Release where
  record : Bytes
  root : Bytes
  time : BitVec 64

def Release.addr (r : Release) : Bytes := vrecAddr r.record

/-- What the walk hands out of it. -/
def Release.visit (r : Release) : Visit := (vrecFields r.record, r.addr)

/-- The line it is printed as, with its number. -/
def Release.line (r : Release) (number : Nat) : Bytes :=
  printNat 10 number ++ 32 :: (r.addr ++ 32 :: (r.root.map lowerDigit ++ [10]))

/-- The lines of the releases, the oldest first. -/
def releaseLines (l : List Release) : List Bytes := l.zipIdx.map fun (r, i) => r.line (i + 1)

/-- The releases of the ref number from one, each with the address of the one before. -/
structure ReleaseNumbered (check : SigCheck) (name : Bytes) (l : List Release) (i : Nat) (r : Release) : Prop where
  decodes : casVrecDecode check r.record = .ok (vrecFields r.record)
  seq : (vrecFields r.record).seq.toNat = i + 1
  root : (vrecFields r.record).root = r.root.map lowerDigit
  first : i = 0 → (vrecFields r.record).prev = []
  linked : ∀ j q, i = j + 1 → l[j]? = some q → (vrecFields r.record).prev = q.addr
  topic : ∃ label, casTopicRefName topicNameSize (vrecFields r.record).topicId label = .ok name
  topicLen : (vrecFields r.record).topicId.length = CAS_HASH_LEN

def AllReleased (check : SigCheck) (name : Bytes) (l : List Release) : Prop :=
  ∀ i r, l[i]? = some r → ReleaseNumbered check name l i r

/-- What the depot has at a record's address is the record. -/
def RecordsIntact (cs : Codecs) (recs : Bytes → Prop) (st : Store) : Prop :=
  ∀ rec, recs rec → ¬ Fresh st (vrecAddr rec) → casOpenObject cs noFaults st (vrecAddr rec) = .ok (tVrec, rec)

/-! ## The walk -/

section
variable {check : SigCheck} {cs : Codecs} {name : Bytes} {l : List Release} {recs : Bytes → Prop} {st : Store}

theorem loadRecord_intact (hst : RecordsIntact cs recs st) {rec : Bytes} (hr : recs rec)
    (hf : ¬ Fresh st (vrecAddr rec)) : loadRecord check cs noFaults st (vrecAddr rec) = casVrecDecode check rec := by
  unfold loadRecord
  rw [hst rec hr hf]
  simp

/-- The releases from `k` up to one more. -/
theorem drop_take_succ (i k : Nat) (r : Release) (hi : l[i]? = some r) (hk : k ≤ i) :
    (l.take (i + 1)).drop k = (l.take i).drop k ++ [r] := by
  obtain ⟨hlen, -⟩ := List.getElem?_eq_some_iff.mp hi
  rw [List.take_add_one, hi, List.drop_append_of_le_length (by rw [List.length_take]; omega)]
  rfl

variable (hl : AllReleased check name l) (hmem : ∀ r ∈ l, recs r.record) (hst : RecordsIntact cs recs st)

include hl hmem hst

/-- **From any release down** the walk visits the releases before it as long as they are stored, and returns `CAS_OK`
at the first one or `CAS_SIGN_EINCOMPLETE`. -/
theorem vchainLoop_releases (i : Nat) (r : Release) (hi : l[i]? = some r) :
    ∃ k rc, k ≤ i ∧ (rc = .eincomplete ∨ rc = .sign (.cas .ok)) ∧
      (∀ j q, l[j]? = some q → j + 1 = k → Fresh st q.addr) ∧ ∀ fuel seen, i < fuel →
        vchainLoop check cs noFaults st keepsWalking 0 fuel (vrecFields r.record) r.addr seen =
          some (rc, seen ++ (((l.take (i + 1)).drop k).map Release.visit).reverse) := by
  induction i generalizing r with
  | zero =>
    have hr := hl 0 r hi
    refine ⟨0, .sign (.cas .ok), Nat.le_refl _, .inr rfl, fun j q _ hj => by omega, fun fuel seen hfuel => ?_⟩
    obtain ⟨fuel, rfl⟩ : ∃ m, fuel = m + 1 := ⟨fuel - 1, by omega⟩
    rw [vchainLoop_last check cs st _ _ 0 (.inr (hr.first rfl))]
    rw [drop_take_succ 0 0 r hi (Nat.le_refl _)]
    rfl
  | succ i ih =>
    have hr := hl (i + 1) r hi
    obtain ⟨hlen, hget⟩ := List.getElem?_eq_some_iff.mp hi
    obtain ⟨q, hq⟩ : ∃ q, l[i]? = some q := ⟨_, List.getElem?_eq_getElem (by omega)⟩
    have hqn := hl i q hq
    have hprev := hr.linked i q rfl hq
    have habove : ¬ (vrecFields r.record).seq ≤ 0 := by
      rw [BitVec.le_def, hr.seq]
      show ¬ _ ≤ 0
      omega
    have hne : (vrecFields r.record).prev ≠ [] := by
      rw [hprev]
      intro hnil
      have hv := validHash_vrecAddr q.record
      rw [show vrecAddr q.record = [] from hnil] at hv
      cases hv
    have hgoes : ¬ ((vrecFields r.record).seq ≤ 0 ∨ (vrecFields r.record).prev = []) := by
      rintro (h | h)
      · exact habove h
      · exact hne h
    by_cases hf : Fresh st q.addr
    · -- the one before is gone
      have hload : vchainLoad check cs noFaults st (vrecFields r.record).prev = .error (.cas .enotfound) := by
        rw [hprev]
        exact (loadRecord_enotfound_iff check cs st q.addr).mpr
          ⟨validHash_vrecAddr _, (fresh_iff st _ (validHash_vrecAddr _)).mp hf⟩
      refine ⟨i + 1, .eincomplete, Nat.le_refl _, .inl rfl, fun j q' hj heq => ?_, fun fuel seen hfuel => ?_⟩
      · obtain rfl : j = i := by omega
        obtain rfl := Option.some.inj (hq.symm.trans hj)
        exact hf
      · obtain ⟨fuel, rfl⟩ : ∃ m, fuel = m + 1 := ⟨fuel - 1, by omega⟩
        rw [drop_take_succ (i + 1) (i + 1) r hi (Nat.le_refl _), List.drop_eq_nil_of_le (List.length_take_le _ _)]
        conv_lhs => unfold vchainLoop
        dsimp only
        rw [if_neg (by simp [keepsWalking]), if_neg hgoes, hload]
        rfl
    · have hload : vchainLoad check cs noFaults st (vrecFields r.record).prev = .ok (vrecFields q.record) := by
        rw [hprev]
        exact (loadRecord_intact hst (hmem q (List.mem_of_getElem? hq)) hf).trans hqn.decodes
      have htopic : (vrecFields q.record).topicId = (vrecFields r.record).topicId := by
        obtain ⟨label, hname⟩ := hqn.topic
        obtain ⟨label', hname'⟩ := hr.topic
        exact (casTopicRefName_inj _ _ _ _ _ _ _ hqn.topicLen hr.topicLen hname hname').1
      have hseq : (vrecFields q.record).seq + 1 = (vrecFields r.record).seq := by
        have hlt := (vrecFields r.record).seq.isLt
        apply BitVec.eq_of_toNat_eq
        rw [BitVec.toNat_add, hqn.seq, hr.seq]
        rw [hr.seq] at hlt
        exact Nat.mod_eq_of_lt hlt
      obtain ⟨k, rc, hk, hrc, hfirst, hrun⟩ := ih q hq
      refine ⟨k, rc, by omega, hrc, hfirst, fun fuel seen hfuel => ?_⟩
      obtain ⟨fuel, rfl⟩ : ∃ m, fuel = m + 1 := ⟨fuel - 1, by omega⟩
      conv_lhs => unfold vchainLoop
      dsimp only
      rw [if_neg (by simp [keepsWalking]), if_neg hgoes, hload]
      dsimp only
      rw [if_neg (not_not.mpr htopic), if_neg (not_not.mpr hseq), hprev,
        hrun fuel _ (by omega), drop_take_succ (i + 1) k r hi (by omega)]
      simp [Release.visit]

omit hmem hst in
theorem printChainEntry_visits : (l.map Release.visit).map printChainEntry = releaseLines l := by
  unfold releaseLines
  rw [List.map_map]
  apply List.ext_getElem?
  intro i
  rw [List.getElem?_map, List.getElem?_map, List.getElem?_zipIdx, Option.map_map]
  cases hi : l[i]? with
  | none => rfl
  | some r =>
    have hr := hl i r hi
    rw [Option.map_some, Option.map_some]
    congr 1
    show printNat 10 (vrecFields r.record).seq.toNat ++ 32 :: (r.addr ++ 32 :: ((vrecFields r.record).root ++ [10])) = _
    rw [hr.seq, hr.root]
    show _ = r.line (0 + i + 1)
    rw [Nat.zero_add]
    rfl

/-- **The log of a topic** whose head is its last release. -/
theorem cmdTopicLog_releases {b : KeyBackend} {ct : CasTree} (hb : b.check = check) (hct : ct.store = st) {r : Release}
    (hlast : l.getLast? = some r) (hroot : casTreeRefRead noFaults ct.refs name = .ok r.addr)
    (hf : ¬ Fresh st r.addr) : ∃ k < l.length, (∀ j q, l[j]? = some q → j + 1 = k → Fresh st q.addr) ∧
      ∀ fuel, 2 ^ 64 ≤ fuel → cmdTopicLog b cs ct [name] fuel = some (0, ((releaseLines l).drop k).reverse.flatten) := by
  subst hb hct
  have hpos : 0 < l.length := List.length_pos_of_ne_nil (by rintro rfl; cases hlast)
  have hi : l[l.length - 1]? = some r := by rw [← List.getLast?_eq_getElem?]; exact hlast
  have hr := hl _ r hi
  have hload : loadRecord b.check cs noFaults ct.store r.addr = .ok (vrecFields r.record) :=
    (loadRecord_intact hst (hmem r (List.mem_of_getLast? hlast)) hf).trans hr.decodes
  have hbound : l.length - 1 < 2 ^ 64 := by
    have hlt := (vrecFields r.record).seq.isLt
    rw [hr.seq] at hlt
    omega
  obtain ⟨k, rc, hk, hrc, hfirst, hrun⟩ := vchainLoop_releases hl hmem hst (l.length - 1) r hi
  rw [Nat.sub_add_cancel hpos, List.take_length] at hrun
  refine ⟨k, by omega, hfirst, fun fuel hfuel => ?_⟩
  have hwalk : casVchainWalk b.check cs noFaults ct.store keepsWalking fuel r.addr 0 =
      some (rc, ((l.drop k).map Release.visit).reverse) := by
    unfold casVchainWalk
    rw [vchainLoad_eq, hload]
    exact hrun fuel [] (by omega)
  have hhead : casTopicHead b.check cs noFaults ct name = .ok (vrecFields r.record, r.addr) := by
    unfold casTopicHead
    rw [hroot]
    simp only [hload, Except.map]
  unfold cmdTopicLog
  simp only [hhead, hwalk, Option.map_some]
  rw [if_pos hrc, ← printChainEntry_visits hl, List.flatMap_def, List.map_reverse, List.map_drop, List.map_drop]

end

/-! ## Runs -/

/-- A depot, what has been published under a ref, and what of it the ref's log is to name, the newest last. -/
structure ReleaseWorld where
  ct : CasTree
  released : List Release
  logged : List Release

inductive ReleaseCall
  | publish (host : TopicHost) (argv : List Bytes)
  | commit (name root comment : Bytes) (timeS timeNs : Int)
  | put (flt : Faults) (type : CStr) (data : Bytes) (now : Int)
  | prune (flt : PruneFaults) (basedir name : Bytes) (keepCount keepSince : Int)
  | gc (grace now : Int) (fn : Nat → Bytes → Bool)

section
variable (b : KeyBackend) (cs : Codecs) (name : Bytes)

/-- A publish under the ref that succeeds adds a release. -/
def ReleaseWorld.publish (w : ReleaseWorld) (host : TopicHost) (argv : List Bytes) : ReleaseWorld :=
  let r := cmdPublish b cs host w.ct argv
  match publishDraft b cs host w.ct argv with
  | none => { w with ct := r.2.2 }
  | some d =>
    if r.1 = 0 ∧ d.refname = name then
      ⟨r.2.2, w.released ++ [⟨d.record, d.root, host.timeS⟩], w.logged ++ [⟨d.record, d.root, host.timeS⟩]⟩
    else { w with ct := r.2.2 }

def ReleaseCall.run (w : ReleaseWorld) : ReleaseCall → ReleaseWorld
  | .publish host argv => w.publish b cs name host argv
  | .commit other root comment timeS timeNs =>
    match casTreeRefCommit w.ct.refs other root comment timeS timeNs with
    | .error _ => w
    | .ok refs => { w with ct := ⟨w.ct.store, refs⟩ }
  | .put flt type data now =>
    match casPutObject flt w.ct.store type data now with
    | .error _ => w
    | .ok (st, _) => { w with ct := ⟨st, w.ct.refs⟩ }
  | .prune flt basedir other keepCount keepSince =>
    let r := casTreeLogTruncate flt basedir w.ct.refs other keepCount keepSince
    { w with
      ct := ⟨w.ct.store, r.refs⟩
      logged := if r.status = .ok ∧ other = name then prunedBy Release.time keepCount keepSince w.logged
        else w.logged }
  | .gc grace now fn => { w with ct := ⟨(casTreeGc cs noFaults w.ct grace now fn).2.1, w.ct.refs⟩ }

def ReleaseStep (w : ReleaseWorld) (c : ReleaseCall) (w' : ReleaseWorld) : Prop := w' = c.run b cs name w

/-- The calls that are allowed: what is published is one of the records; a commit is under another ref; an object at
a record's address is the record; no read of the topic's ref log fails in a truncation. -/
def ReleaseAllowed (recs : Bytes → Prop) (w : ReleaseWorld) : ReleaseCall → Prop
  | .publish host argv => ∀ d, publishDraft b cs host w.ct argv = some d → recs d.record
  | .commit other _ _ _ _ => other ≠ name
  | .put _ type data _ => ∀ rec, recs rec → toHex (objBin (type, data)) = vrecAddr rec → (type, data) = (tVrec, rec)
  | .prune flt _ other _ _ => other = name → ∀ n, flt.readLine n = false
  | .gc _ _ _ => True

/-- A run from a depot without the ref. -/
def ReleaseRun (recs : Bytes → Prop) (ct : CasTree) (w : ReleaseWorld) : Prop :=
  Run (ReleaseStep b cs name) (ReleaseAllowed b cs name recs) ⟨ct, [], []⟩ w

end

/-- Records, each with an address of its own, none of which is that of zeros. -/
structure RecordSet (recs : Bytes → Prop) : Prop where
  length : ∀ rec, recs rec → rec.length = CAS_VREC_LEN
  distinct : ∀ rec rec', recs rec → recs rec' → vrecAddr rec = vrecAddr rec' → rec = rec'
  nonzero : ∀ rec, recs rec → objBin (tVrec, rec) ≠ List.replicate CAS_HASH_LEN 0

/-- A depot without the ref, whose objects at the addresses of records are these. -/
structure ReleaseStart (cs : Codecs) (name : Bytes) (recs : Bytes → Prop) (ct : CasTree) : Prop where
  intact : RecordsIntact cs recs ct.store
  noLog : refFile ct.refs (name ++ dotLog) = none
  noRoot : refFile ct.refs (name ++ dotRoot) = none

/-- An entry of the log and the release it names. -/
structure ReleaseAt (e : LogEntry) (r : Release) : Prop where
  hash : e.hash = r.addr
  time : e.timeS = r.time

/-- What holds of every state of a run. -/
structure ReleasesKept (b : KeyBackend) (cs : Codecs) (name : Bytes) (recs : Bytes → Prop) (w : ReleaseWorld) :
    Prop where
  intact : RecordsIntact cs recs w.ct.store
  member : ∀ r ∈ w.released, recs r.record
  numbered : AllReleased b.check name w.released
  log : LogKept ReleaseAt w.ct.refs name w.logged
  last : w.logged.getLast? = w.released.getLast?
  subset : ∀ r ∈ w.logged, r ∈ w.released
  stored : ∀ r ∈ w.logged, ¬ Fresh w.ct.store r.addr
  noRoot : w.released = [] → refFile w.ct.refs (name ++ dotRoot) = none

section
variable {b : KeyBackend} {cs : Codecs} {name : Bytes} {recs : Bytes → Prop}

theorem ReleaseStart.kept {ct : CasTree} (h : ReleaseStart cs name recs ct) :
    ReleasesKept b cs name recs ⟨ct, [], []⟩ where
  intact := h.intact
  member _ hr := nomatch hr
  numbered _ _ hi := nomatch hi
  log := by
    have hlog : logFile ct.refs name = [] := by
      unfold logFile
      rw [h.noLog]
      rfl
    refine (@logKept_new _ ReleaseAt name).congr hlog ?_
    rw [h.noRoot]
    rfl
  last := rfl
  subset _ hr := nomatch hr
  stored _ hr := nomatch hr
  noRoot _ := h.noRoot

/-- A put of an object that is none of the records but at its own address. -/
theorem RecordsIntact.put {st st' : Store} {hash : Bytes} {obj : Object} (h : RecordsIntact cs recs st)
    (hs : RecordSet recs) (hput : PutAt cs st st' hash obj)
    (hobj : ∀ rec, recs rec → hash = vrecAddr rec → obj = (tVrec, rec)) : RecordsIntact cs recs st' := by
  intro rec hr hstored
  by_cases hfresh : Fresh st (vrecAddr rec)
  · by_cases heq : vrecAddr rec = hash
    · obtain rfl := hobj rec hr heq.symm
      have hfits : RawFits tVrec rec := by
        refine ⟨by decide, ?_⟩
        rw [hs.length rec hr]
        decide
      rw [heq] at hfresh ⊢
      exact hput.opens hfresh hfits
    · exact absurd ((hput.fresh heq).mpr hfresh) hstored
  · exact hput.grows _ _ (h rec hr hfresh)

theorem PutAt.stored {st st' : Store} {hash : Bytes} {obj : Object} (hput : PutAt cs st st' hash obj) {other : Bytes}
    (h : ¬ Fresh st other) : ¬ Fresh st' other := by
  by_cases heq : other = hash
  · subst heq
    rcases hput.cases with ⟨-, rfl⟩ | ⟨hf, -⟩
    · exact h
    · exact absurd hf h
  · exact fun hf => h ((hput.fresh heq).mp hf)

theorem PutAt.self {st st' : Store} {hash : Bytes} {obj : Object} (hput : PutAt cs st st' hash obj) :
    ¬ Fresh st' hash := by
  rcases hput.cases with ⟨hold, rfl⟩ | ⟨-, f, rfl, -⟩
  · exact hold
  · intro hf
    have hloose := hf.1
    unfold Store.hasLoose at hloose
    rw [setLoose_lookup_self] at hloose
    cases hloose

theorem putChecked_putAt (cs : Codecs) {flt : Faults} {st st' : Store} {type : CStr} {data hash : Bytes} {now : Int}
    (h : casTreePutChecked flt st type data hash now = .ok st') : PutAt cs st st' hash (type, data) := by
  unfold casTreePutChecked at h
  split at h
  · cases h
  · exact casPutObjectAt_putAt cs h

/-- A step of the depot that keeps the records, and the log with its root. -/
theorem ReleasesKept.depot {w : ReleaseWorld} (h : ReleasesKept b cs name recs w) {ct : CasTree}
    (hi : RecordsIntact cs recs ct.store) (hlog : LogKept ReleaseAt ct.refs name w.logged)
    (hst : ∀ r ∈ w.logged, ¬ Fresh ct.store r.addr)
    (hroot : refFile ct.refs (name ++ dotRoot) = refFile w.ct.refs (name ++ dotRoot)) :
    ReleasesKept b cs name recs { w with ct := ct } where
  intact := hi
  member := h.member
  numbered := h.numbered
  log := hlog
  last := h.last
  subset := h.subset
  stored := hst
  noRoot hnil := hroot.trans (h.noRoot hnil)

/-! ### Publishes -/

/-- The head of the ref is the last release. -/
theorem ReleasesKept.head {w : ReleaseWorld} (h : ReleasesKept b cs name recs w) (hn : validRefName name = true) :
    headOrNone (casTopicHead b.check cs noFaults w.ct name) =
      .ok (w.released.getLast?.map fun r => (vrecFields r.record, r.addr)) := by
  cases hlast : w.released.getLast? with
  | none =>
    have hroot := h.noRoot (List.getLast?_eq_none_iff.mp hlast)
    unfold casTopicHead casTreeRefRead
    rw [if_neg (by simp [hn]), hroot]
    rfl
  | some r =>
    have hne : w.logged ≠ [] := by
      rintro hnil
      have := h.last
      rw [hnil, hlast] at this
      cases this
    obtain ⟨e, r', hr', hat, hread⟩ := h.log.last hne
    obtain rfl : r' = r := Option.some.inj ((hr'.symm.trans h.last).trans hlast)
    have hi : w.released[w.released.length - 1]? = some r' := by
      rw [← List.getLast?_eq_getElem?]
      exact hlast
    have hf := h.stored r' (List.mem_of_getLast? hr')
    have hload : loadRecord b.check cs noFaults w.ct.store r'.addr = .ok (vrecFields r'.record) :=
      (loadRecord_intact h.intact (h.member r' (List.mem_of_getLast? hlast)) hf).trans (h.numbered _ r' hi).decodes
    rw [hat.hash] at hread
    unfold casTopicHead
    simp only [hread, hload, Except.map]
    rfl

theorem casSignKeyLoad_pair {keyPair : KeyPair} {flt : KeyloadFaults} {files : HostFiles} {path sk pk : Bytes}
    (h : casSignKeyLoad (some keyPair) flt files path = .ok (sk, pk)) : ∃ seed, keyPair seed = .ok (sk, pk) := by
  unfold casSignKeyLoad at h
  simp only [] at h
  split at h
  · cases h
  · split at h
    · cases h
    · split at h
      · cases h
      · split at h
        · cases h
        · split at h
          · cases h
          · next seed hseed =>
            refine ⟨seed, ?_⟩
            cases hk : keyPair seed with
            | error rc =>
              rw [hk] at h
              cases h
            | ok keys =>
              rw [hk] at h
              obtain rfl := Except.ok.inj h
              rfl

/-- What a draft was made of. -/
structure Drafted (b : KeyBackend) (cs : Codecs) (host : TopicHost) (ct : CasTree) (d : Draft) (sk pk : Bytes)
    (cur : Option (Vrec × Bytes)) : Prop where
  pair : ∃ seed, b.keyPair seed = .ok (sk, pk)
  refname : ∃ label, casTopicRefName topicNameSize (casSignTopicId pk) label = .ok d.refname
  head : headOrNone (casTopicHead b.check cs noFaults ct d.refname) = .ok cur
  root : validHash d.root = true
  encoded : casVrecEncode (b.sign sk) (nextVrec pk d.root host.time cur) = .ok d.record

theorem publishDraft_some {host : TopicHost} {ct : CasTree} {argv : List Bytes} {d : Draft}
    (h : publishDraft b cs host ct argv = some d) : ∃ sk pk cur, Drafted b cs host ct d sk pk cur := by
  unfold publishDraft at h
  split at h
  · next label keyfile root rest hargs =>
    split at h
    · cases h
    · next sk pk hload =>
      split at h
      · cases h
      · next refname hname =>
        split at h
        · cases h
        · next cur hhead =>
          split at h
          · cases h
          · next hvalid =>
            split at h
            · cases h
            · split at h
              · cases h
              · next record henc =>
                obtain rfl := Option.some.inj h
                exact ⟨sk, pk, cur, casSignKeyLoad_pair hload, ⟨label, hname⟩, hhead, by simpa using hvalid, henc⟩
  · cases h

/-- What a record that follows on the head decodes to. -/
theorem Drafted.decodes (hb : b.Sound) {host : TopicHost} {ct : CasTree} {d : Draft} {sk pk : Bytes}
    {cur : Option (Vrec × Bytes)} (h : Drafted b cs host ct d sk pk cur)
    (hprev : ∀ v addr, cur = some (v, addr) → PrevOk addr) :
    casVrecDecode b.check d.record = .ok (nextVrec pk d.root host.time cur).lowered := by
  obtain ⟨seed, hpair⟩ := h.pair
  have hpk : (nextVrec pk d.root host.time cur).pubkey = b.pubkey sk := by
    rw [← hb.pair seed sk pk hpair]
    cases cur <;> rfl
  have hroot : validHash (nextVrec pk d.root host.time cur).root = true := by
    cases cur <;> exact h.root
  have hok : PrevOk (nextVrec pk d.root host.time cur).prev := by
    cases cur with
    | none => exact .inl rfl
    | some cur => exact hprev cur.1 cur.2 rfl
  obtain ⟨record, henc, hdec⟩ := casVrecDecode_encoded b.toSignBackend hb.toChecks sk _ hpk hroot hok
  obtain rfl : record = d.record := Except.ok.inj (henc.symm.trans h.encoded)
  exact hdec

/-- The address of a record is no address of zeros. -/
theorem prevOk_record (hs : RecordSet recs) {rec : Bytes} (hr : recs rec) : PrevOk (vrecAddr rec) := by
  refine .inr ⟨validHash_vrecAddr rec, ?_⟩
  unfold vrecAddr
  rw [casHexDecode_toHex]
  exact fun heq => hs.nonzero rec hr (Option.some.inj heq)

theorem AllReleased.concat {check : SigCheck} {l : List Release} (h : AllReleased check name l) {r : Release}
    (hr : ReleaseNumbered check name l l.length r) : AllReleased check name (l ++ [r]) := by
  intro i q hi
  by_cases hlt : i < l.length
  · rw [List.getElem?_append_left hlt] at hi
    have hq := h i q hi
    refine ⟨hq.decodes, hq.seq, hq.root, hq.first, fun j p heq hj => hq.linked j p heq ?_, hq.topic, hq.topicLen⟩
    rwa [List.getElem?_append_left (by omega)] at hj
  · have hlen := (List.getElem?_eq_some_iff.mp hi).1
    rw [List.length_append, List.length_singleton] at hlen
    obtain rfl : i = l.length := by omega
    rw [List.getElem?_concat_length] at hi
    obtain rfl := Option.some.inj hi
    refine ⟨hr.decodes, hr.seq, hr.root, hr.first, fun j p heq hj => hr.linked j p heq ?_, hr.topic, hr.topicLen⟩
    rwa [List.getElem?_append_left (by omega)] at hj

/-- A draft under the ref was made for the last release. -/
theorem ReleasesKept.drafted (hs : RecordSet recs) {w : ReleaseWorld} (h : ReleasesKept b cs name recs w)
    {host : TopicHost} {d : Draft} {sk pk : Bytes} {cur : Option (Vrec × Bytes)}
    (hd : Drafted b cs host w.ct d sk pk cur) (hname : d.refname = name) :
    cur = (w.released.getLast?.map fun r => (vrecFields r.record, r.addr)) ∧
      ∀ v addr, cur = some (v, addr) → PrevOk addr := by
  have hhead := hd.head
  rw [hname, h.head (hname ▸ validRefName_of_head b.check cs noFaults w.ct d.refname cur hd.head)] at hhead
  obtain rfl := Except.ok.inj hhead
  refine ⟨rfl, fun v addr heq => ?_⟩
  obtain ⟨r, hr, heq⟩ := Option.map_eq_some_iff.mp heq
  obtain ⟨-, rfl⟩ := Prod.mk.inj heq
  exact prevOk_record hs (h.member r (List.mem_of_getLast? hr))

/-- What is published follows on the last release. -/
theorem ReleasesKept.next (hb : b.Sound) (hs : RecordSet recs) {w : ReleaseWorld}
    (h : ReleasesKept b cs name recs w) {host : TopicHost} {d : Draft} {sk pk : Bytes} {cur : Option (Vrec × Bytes)}
    (hd : Drafted b cs host w.ct d sk pk cur) (hname : d.refname = name) {cand : Vrec}
    (hdec : casVrecDecode b.check d.record = .ok cand) (hsucc : casVrecSucceeds cur cand = .cas .ok)
    (time : BitVec 64) :
    ReleaseNumbered b.check name w.released w.released.length ⟨d.record, d.root, time⟩ := by
  obtain ⟨rfl, hprev⟩ := h.drafted hs hd hname
  have hlow := hd.decodes hb hprev
  obtain rfl := Except.ok.inj (hdec.symm.trans hlow)
  have hfields := (casVrecDecode_ok b.check d.record _ hdec).fields
  obtain ⟨label, hlabel⟩ := hd.refname
  cases hlast : w.released.getLast? with
  | none =>
    have hnil := List.getLast?_eq_none_iff.mp hlast
    rw [hlast] at hfields hdec
    constructor
    case decodes => rw [← hfields]; exact hdec
    case seq => rw [← hfields, hnil]; rfl
    case root => rw [← hfields]; rfl
    case first => exact fun _ => by rw [← hfields]; rfl
    case linked =>
      intro j q hj
      rw [hnil] at hj
      cases hj
    case topic => exact ⟨label, by rw [← hfields, ← hname]; exact hlabel⟩
    case topicLen => rw [← hfields]; exact length_casDigest _
  | some r =>
    have hi : w.released[w.released.length - 1]? = some r := by
      rw [← List.getLast?_eq_getElem?]
      exact hlast
    have hpos : 0 < w.released.length := by
      have := (List.getElem?_eq_some_iff.mp hi).1
      omega
    have hr := h.numbered _ r hi
    rw [hlast] at hfields hdec hsucc
    have hfollows := (casVrecSucceeds_iff _ _ _).mp hsucc
    rw [Option.map_some] at hfields hdec hfollows
    rw [hfields] at hfollows
    constructor
    case decodes => rw [← hfields]; exact hdec
    case seq =>
      have hseq := hfollows.seq
      rw [hr.seq] at hseq
      show (vrecFields d.record).seq.toNat = _
      omega
    case root => show (vrecFields d.record).root = _; rw [← hfields]; rfl
    case first => exact fun hzero => absurd hzero (by omega)
    case linked =>
      intro j q hj hq
      obtain rfl : j = w.released.length - 1 := by omega
      obtain rfl := Option.some.inj (hi.symm.trans hq)
      exact hfollows.prev
    case topic => exact ⟨label, by rw [← hfields, ← hname]; exact hlabel⟩
    case topicLen => rw [← hfields]; exact length_casDigest _

/-- **A publish under the ref exits with 0**, once it has made its record, until the numbers run out. -/
theorem ReleasesKept.publishes (hb : b.Sound) (hs : RecordSet recs) {w : ReleaseWorld}
    (h : ReleasesKept b cs name recs w) {host : TopicHost} {argv : List Bytes} {d : Draft}
    (hdraft : publishDraft b cs host w.ct argv = some d) (hname : d.refname = name)
    (hlt : w.released.length + 1 < 2 ^ 64) : (cmdPublish b cs host w.ct argv).1 = 0 := by
  obtain ⟨sk, pk, cur, hd⟩ := publishDraft_some hdraft
  obtain ⟨hcur, hprev⟩ := h.drafted hs hd hname
  have hn : validRefName name = true := hname ▸ validRefName_of_head b.check cs noFaults w.ct d.refname cur hd.head
  have hdec := hd.decodes hb hprev
  have hlen := length_of_decoded b.check d.record _ hdec
  have hsucc : casVrecSucceeds cur (nextVrec pk d.root host.time cur).lowered = .cas .ok := by
    subst hcur
    cases hlast : w.released.getLast? with
    | none => rfl
    | some r =>
      have hi : w.released[w.released.length - 1]? = some r := by
        rw [← List.getLast?_eq_getElem?]
        exact hlast
      have hpos : 0 < w.released.length := List.length_pos_of_ne_nil (by rintro hnil; rw [hnil] at hlast; cases hlast)
      have hr := h.numbered _ r hi
      refine (casVrecSucceeds_iff _ _ _).mpr ⟨?_, ?_, ?_⟩
      · obtain ⟨label, hlabel⟩ := hd.refname
        obtain ⟨label', hlabel'⟩ := hr.topic
        exact (casTopicRefName_inj _ _ _ _ _ _ _ (length_casDigest pk) hr.topicLen (hname ▸ hlabel) hlabel').1
      · show ((vrecFields r.record).seq + 1).toNat = _
        rw [BitVec.toNat_add, hr.seq]
        exact Nat.mod_eq_of_lt (by rw [Nat.sub_add_cancel hpos]; exact hlt)
      · exact (toHex_casHexDecode _ _ (casHexDecode_toHex _)).symm
  obtain ⟨refs, hcommit⟩ := casTreeRefCommit_valid w.ct.refs d.refname (vrecAddr d.record)
    (lit ['p', 'u', 'b', 'l', 'i', 's', 'h']).bytes host.timeS.toInt host.timeNs.toInt (hname ▸ hn)
    (validHash_vrecAddr _)
  unfold cmdPublish casTopicPublish
  simp only [hdraft, hdec, hd.head, hsucc, casVrecAddress_eq d.record hlen, casTreePutChecked_vrec d.record hlen,
    hcommit, ne_eq, not_true, if_false]

/-- The line of a publish fits the reader's buffer. -/
theorem shortCommit_publish (root : Bytes) (hv : validHash root = true) (timeS : BitVec 64) (timeNs : BitVec 32) :
    ShortCommit ⟨root, lit ['p', 'u', 'b', 'l', 'i', 's', 'h'], timeS.toInt, timeNs.toInt⟩ :=
  shortCommit_comment hv (by decide) (by decide) ⟨BitVec.le_toInt timeS, BitVec.toInt_lt⟩
    ⟨BitVec.le_toInt timeNs, BitVec.toInt_lt⟩

/-- **A publish** puts its record in the depot, and adds a release when it is under the ref. -/
theorem releasesKept_publish (hb : b.Sound) (hs : RecordSet recs) {w : ReleaseWorld}
    (h : ReleasesKept b cs name recs w) (host : TopicHost) (argv : List Bytes)
    (hrecs : ∀ d, publishDraft b cs host w.ct argv = some d → recs d.record) :
    ReleasesKept b cs name recs (w.publish b cs name host argv) := by
  unfold ReleaseWorld.publish cmdPublish
  cases hdraft : publishDraft b cs host w.ct argv with
  | none => exact h
  | some d =>
    obtain ⟨sk, pk, cur, hd⟩ := publishDraft_some hdraft
    have hrec := hrecs d hdraft
    simp only []
    rcases casTopicPublish_cases b.check cs noFaults w.ct d.refname d.record (lit ['p', 'u', 'b', 'l', 'i', 's', 'h']).bytes
      host.timeS.toInt host.timeNs.toInt with ⟨hok, cand, cur', addr, hp⟩ | ⟨hno, hct⟩
    · rw [if_neg (not_not.mpr hok)]
      simp only [true_and]
      obtain rfl : cur' = cur := Except.ok.inj (hp.head.symm.trans hd.head)
      obtain rfl : vrecAddr d.record = addr :=
        Except.ok.inj ((casVrecAddress_eq d.record (hs.length _ hrec)).symm.trans hp.address)
      have hat := putChecked_putAt cs hp.stored
      have hintact := h.intact.put hs hat fun rec hr heq => by rw [hs.distinct _ _ hrec hr heq]
      have hstored : ∀ r ∈ w.logged, ¬ Fresh _ r.addr := fun r hr => hat.stored (h.stored r hr)
      split
      · next hname =>
        subst hname
        have hnext := h.next hb hs hd rfl hp.decoded hp.succeeds host.timeS
        obtain ⟨-, hvalid, -, -⟩ := casTreeRefCommit_files _ _ _ _ _ _ _ hp.committed
        have hself := hat.self
        constructor
        case intact => exact hintact
        case member =>
          intro r hr
          rcases List.mem_append.mp hr with hr | hr
          · exact h.member r hr
          · obtain rfl := List.mem_singleton.mp hr
            exact hrec
        case numbered => exact h.numbered.concat hnext
        case log =>
          exact h.log.commit (c := ⟨vrecAddr d.record, _, _, _⟩) (shortCommit_publish _ hvalid host.timeS host.timeNs)
            ⟨rfl, BitVec.ofInt_toInt⟩ hp.committed
        case last => rw [List.getLast?_concat, List.getLast?_concat]
        case subset =>
          intro r hr
          rcases List.mem_append.mp hr with hr | hr
          · exact List.mem_append_left _ (h.subset r hr)
          · exact List.mem_append_right _ hr
        case stored =>
          intro r hr
          rcases List.mem_append.mp hr with hr | hr
          · exact hstored r hr
          · obtain rfl := List.mem_singleton.mp hr
            exact hself
        case noRoot => exact fun hnil => absurd hnil (by simp)
      · next hname =>
        have hne : name ≠ d.refname := fun heq => hname heq.symm
        exact h.depot hintact (h.log.commit_other hp.committed hne) hstored (commit_other_root hp.committed name hne)
    · rw [if_pos hno]
      simp only [hct]
      exact h

/-- **What one call preserves.** -/
theorem releasesKept_step (hb : b.Sound) (hs : RecordSet recs) {w w' : ReleaseWorld} {c : ReleaseCall}
    (h : ReleasesKept b cs name recs w) (hstep : ReleaseStep b cs name w c w')
    (hc : ReleaseAllowed b cs name recs w c) : ReleasesKept b cs name recs w' := by
  obtain rfl := hstep
  cases c with
  | publish host argv => exact releasesKept_publish hb hs h host argv hc
  | commit other root comment timeS timeNs =>
    unfold ReleaseCall.run
    simp only []
    split
    · exact h
    · next refs hrun =>
      have hne : name ≠ other := fun heq => hc heq.symm
      exact h.depot h.intact (h.log.commit_other hrun hne) h.stored (commit_other_root hrun name hne)
  | put flt type data now =>
    unfold ReleaseCall.run
    simp only []
    split
    · exact h
    · next st hash hput =>
      obtain ⟨haddr, hat⟩ := casPutObject_putAt cs hput
      exact h.depot (h.intact.put hs hat fun rec hr heq => hc rec hr (haddr ▸ heq)) h.log
        (fun r hr => hat.stored (h.stored r hr)) rfl
  | prune flt basedir other keepCount keepSince =>
    have hroot : refFile (casTreeLogTruncate flt basedir w.ct.refs other keepCount keepSince).refs (name ++ dotRoot) =
        refFile w.ct.refs (name ++ dotRoot) := truncate_root flt keepCount keepSince basedir w.ct.refs name
    unfold ReleaseCall.run
    simp only []
    split
    · next hok =>
      obtain ⟨hok, rfl⟩ := hok
      have hsub : ∀ r ∈ prunedBy Release.time keepCount keepSince w.logged, r ∈ w.logged :=
        fun r hr => (pick_sublist _ _).subset hr
      constructor
      case intact => exact h.intact
      case member => exact h.member
      case numbered => exact h.numbered
      case log => exact h.log.prune Release.time (fun e r hat => hat.time) (hc rfl) hok
      case last => exact (getLast?_prunedBy Release.time keepCount keepSince w.logged).trans h.last
      case subset => exact fun r hr => h.subset r (hsub r hr)
      case stored => exact fun r hr => h.stored r (hsub r hr)
      case noRoot => exact fun hnil => hroot.trans (h.noRoot hnil)
    · next hno =>
      exact h.depot h.intact (h.log.prune_kept fun heq hok => hno ⟨hok, heq.symm⟩) h.stored hroot
  | gc grace now fn =>
    have hkept : ∀ r ∈ w.logged, ¬ Fresh (casTreeGc cs noFaults w.ct grace now fn).2.1 r.addr := by
      intro r hr hf
      obtain ⟨e, he, hat⟩ := h.log.entry hr
      obtain ⟨hpack, hloose⟩ := gc_logRoot cs w.ct grace now fn (hat.hash ▸ h.log.roots he w.ct.store)
      refine h.stored r hr ⟨?_, ?_⟩
      · rw [← hf.1]
        unfold Store.hasLoose
        rw [hloose]
      · rw [← hf.2]
        unfold Store.packed
        rw [hpack]
    refine h.depot (fun rec hr hstored => ?_) h.log hkept rfl
    obtain ⟨hold, hsame⟩ := gc_left_reads cs w.ct grace now fn (validHash_vrecAddr rec) hstored
    exact hsame.trans (h.intact rec hr hold)

end

/-- **The log of a topic lists what was published.**  After any run of publishes under any refs, commits to other refs,
puts of other objects, truncations and collections, from a depot without the ref: `castool topic-log` says that there
is no topic, if nothing was published under the ref; otherwise it exits with 0 and prints the releases from the newest
down to the first, each with its number, its record and its root, except the oldest ones up to some `k`, which is no
more than the first number from which on the ref's log still names all of them.  A publish under the ref that has made
its record exits with 0 as well, as long as there are numbers left. -/
theorem topic_log_lists (b : KeyBackend) (hb : b.Sound) (cs : Codecs) (name : Bytes) (recs : Bytes → Prop)
    (hs : RecordSet recs) (ct : CasTree) (hstart : ReleaseStart cs name recs ct) (w : ReleaseWorld)
    (hrun : ReleaseRun b cs name recs ct w) :
    (∀ host argv d, publishDraft b cs host w.ct argv = some d → d.refname = name → w.released.length + 1 < 2 ^ 64 →
      (cmdPublish b cs host w.ct argv).1 = 0) ∧
    (w.released = [] → ∀ fuel, cmdTopicLog b cs w.ct [name] fuel = some (1, [])) ∧
    (w.released ≠ [] → ∃ k < w.released.length,
      (∀ i, (∀ r ∈ w.released.drop i, r ∈ w.logged) → k ≤ i) ∧
      ∀ fuel, 2 ^ 64 ≤ fuel →
        cmdTopicLog b cs w.ct [name] fuel = some (0, ((releaseLines w.released).drop k).reverse.flatten)) := by
  have h : ReleasesKept b cs name recs w := hrun.invariant _ hstart.kept
    fun _ _ _ hk hstep hc => releasesKept_step hb hs hk hstep hc
  refine ⟨fun host argv d hdraft hname hlt => h.publishes hb hs hdraft hname hlt, ?_, ?_⟩
  · intro hnil fuel
    have hread : ∃ rc, casTreeRefRead noFaults w.ct.refs name = .error rc := by
      unfold casTreeRefRead
      rw [h.noRoot hnil]
      split
      · exact ⟨_, rfl⟩
      · exact ⟨_, rfl⟩
    obtain ⟨rc, hread⟩ := hread
    unfold cmdTopicLog casTopicHead
    simp only [hread]
  · intro hne
    have hlogged : w.logged ≠ [] := by
      rintro hnil
      have := h.last
      rw [hnil] at this
      exact hne (List.getLast?_eq_none_iff.mp this.symm)
    obtain ⟨e, r, hr, hat, hread⟩ := h.log.last hlogged
    have hf := h.stored r (List.mem_of_getLast? hr)
    rw [hat.hash] at hread
    obtain ⟨k, hk, hfirst, hprints⟩ := cmdTopicLog_releases h.numbered h.member h.intact rfl rfl
      (h.last.symm.trans hr) hread hf
    refine ⟨k, hk, fun i hall => ?_, hprints⟩
    by_contra hlt
    obtain ⟨j, rfl⟩ : ∃ j, k = j + 1 := ⟨k - 1, by omega⟩
    have hq : w.released[j]? = some w.released[j] := List.getElem?_eq_getElem (by omega)
    have hin : w.released[j] ∈ w.released.drop i := by
      refine List.mem_iff_getElem?.mpr ⟨j - i, ?_⟩
      rw [List.getElem?_drop, Nat.add_sub_cancel' (by omega)]
      exact hq
    exact h.stored _ (hall _ hin) (hfirst j _ hq rfl)

/-! ## One publish -/

/-- A backend that signs with the key and the first octets of the message. -/
def sealKeys : KeyBackend where
  pubkey sk := (sk ++ List.replicate 32 0).take 32
  sign sk msg := (sk ++ List.replicate 32 0).take 32 ++ (msg ++ List.replicate 32 0).take 32
  check sig pk msg := sig == pk ++ (msg ++ List.replicate 32 0).take 32
  keyPair seed := .ok (seed, (seed ++ List.replicate 32 0).take 32)

theorem sealKeys_sound : sealKeys.Sound where
  length_pubkey sk := by
    show ((sk ++ List.replicate 32 0).take 32).length = 32
    rw [List.length_take, List.length_append, List.length_replicate]
    omega
  length_sign sk msg := by
    show ((sk ++ List.replicate 32 0).take 32 ++ (msg ++ List.replicate 32 0).take 32).length = 64
    rw [List.length_append, List.length_take, List.length_take, List.length_append, List.length_append,
      List.length_replicate]
    omega
  check_iff sk msg sig := beq_iff_eq
  pair seed sk pk h := by
    obtain ⟨rfl, rfl⟩ := Prod.mk.inj (Except.ok.inj h)
    rfl

/-- The seed of the one key. -/
def zeroSeed : Bytes := List.replicate CAS_SIGN_SEED_LEN 0

/-- A host with a key file, `k`. -/
def oneKeyHost : TopicHost where
  files := AList.singleton [107] ⟨0o600#32, keyText zeroSeed⟩
  load := ⟨false, false, fun _ => false⟩
  time := 1
  timeS := 1
  timeNs := 0

/-- A depot with a file at the address of zeros, and no refs. -/
def oneRootDepot : CasTree := ⟨Store.empty.setLoose zeroHash ⟨[], 0⟩, none⟩

/-- The first record of the key, for that file. -/
def firstRelease : Bytes :=
  (casVrecEncode (sealKeys.sign zeroSeed) (nextVrec (sealKeys.pubkey zeroSeed) zeroHash 1 none)).toOption.getD []

/-- The ref it is published under. -/
def firstName : Bytes := toHex (casSignTopicId (sealKeys.pubkey zeroSeed))

theorem firstRelease_encoded : casVrecEncode (sealKeys.sign zeroSeed)
    (nextVrec (sealKeys.pubkey zeroSeed) zeroHash 1 none) = .ok firstRelease ∧ firstRelease.length = CAS_VREC_LEN := by
  obtain ⟨rec, henc, hdec⟩ := casVrecDecode_encoded sealKeys.toSignBackend sealKeys_sound.toChecks zeroSeed
    (nextVrec (sealKeys.pubkey zeroSeed) zeroHash 1 none) rfl (by decide) (.inl rfl)
  have heq : firstRelease = rec := by
    unfold firstRelease
    rw [henc]
    rfl
  exact ⟨heq ▸ henc, heq ▸ length_of_decoded _ rec _ hdec⟩

theorem firstRelease_nonzero : objBin (tVrec, firstRelease) ≠ List.replicate CAS_HASH_LEN 0 := by
  decide +kernel

def firstRecord (rec : Bytes) : Prop := rec = firstRelease

theorem recordSet_first : RecordSet firstRecord where
  length _ hr := hr.symm ▸ firstRelease_encoded.2
  distinct _ _ hr hr' _ := hr.trans hr'.symm
  nonzero _ hr := hr.symm ▸ firstRelease_nonzero

theorem firstName_ok : casTopicRefName topicNameSize (casSignTopicId (sealKeys.pubkey zeroSeed)) [] = .ok firstName := by
  have hlen : (toHex (casSignTopicId (sealKeys.pubkey zeroSeed))).length = CAS_HASH_HEX := by
    rw [length_toHex]
    exact congrArg (2 * ·) (length_casDigest _)
  unfold casTopicRefName
  simp only [ne_eq, not_true, false_and, if_false, if_true]
  rw [if_neg (by rw [hlen]; decide)]
  rfl

theorem publishDraft_first : publishDraft sealKeys [] oneKeyHost oneRootDepot [[107], zeroHash] =
    some ⟨firstName, zeroHash, firstRelease⟩ := by
  have hload : casSignKeyLoad (some sealKeys.keyPair) oneKeyHost.load oneKeyHost.files [107] =
      .ok (zeroSeed, sealKeys.pubkey zeroSeed) := by
    decide +kernel
  have hn : validRefName firstName = true := validRefName_topic _ _ _ _ (length_casDigest _) firstName_ok
  have hhead : headOrNone (casTopicHead sealKeys.check [] noFaults oneRootDepot firstName) = .ok none :=
    headOrNone_absent _ _ _ _ hn
  have hvalid : validHash zeroHash ≠ false := by decide
  have hexists : casExists oneRootDepot.store zeroHash ≠ false := by decide
  have hargs : publishArgs [] [[107], zeroHash] = some ([], [[107], zeroHash]) := rfl
  unfold publishDraft
  simp only [hargs, hload, firstName_ok, hhead, if_neg hvalid, if_neg hexists]
  rw [show oneKeyHost.time = 1 from rfl, firstRelease_encoded.1]

/-- The depot has a file at the address of zeros alone. -/
theorem releaseStart_first : ReleaseStart [] firstName firstRecord oneRootDepot where
  intact rec hr hf := by
    refine absurd ?_ hf
    have hne : vrecAddr rec ≠ zeroHash := by
      intro heq
      have hdec := casHexDecode_toHex (objBin (tVrec, rec))
      rw [show toHex (objBin (tVrec, rec)) = zeroHash from heq] at hdec
      exact recordSet_first.nonzero rec hr (Option.some.inj hdec).symm
    refine ⟨?_, rfl⟩
    unfold Store.hasLoose
    show ((Store.empty.setLoose zeroHash ⟨[], 0⟩).loose.lookup _).isSome = false
    rw [setLoose_lookup_ne _ _ _ _ hne]
    rfl
  noLog := rfl
  noRoot := rfl

theorem topic_log_lists_first : ∃ (k : Nat) (w : ReleaseWorld), w.released = [⟨firstRelease, zeroHash, 1⟩] ∧ k < 1 ∧
    ∀ fuel, 2 ^ 64 ≤ fuel → cmdTopicLog sealKeys [] w.ct [firstName] fuel =
      some (0, ((releaseLines w.released).drop k).reverse.flatten) := by
  have hlists := topic_log_lists sealKeys sealKeys_sound [] firstName firstRecord recordSet_first oneRootDepot
    releaseStart_first
  have hexit := (hlists _ (Run.refl _)).1 oneKeyHost [[107], zeroHash] _ publishDraft_first rfl (by decide)
  have hrun : ReleaseRun sealKeys [] firstName firstRecord oneRootDepot
      (ReleaseCall.run sealKeys [] firstName ⟨oneRootDepot, [], []⟩ (.publish oneKeyHost [[107], zeroHash])) := by
    refine (Run.refl _).tail (a := .publish oneKeyHost [[107], zeroHash]) rfl fun d hd => ?_
    obtain rfl := Option.some.inj (publishDraft_first.symm.trans hd)
    rfl
  have hone : (ReleaseCall.run sealKeys [] firstName ⟨oneRootDepot, [], []⟩
      (.publish oneKeyHost [[107], zeroHash])).released = [⟨firstRelease, zeroHash, 1⟩] := by
    unfold ReleaseCall.run ReleaseWorld.publish
    simp only [publishDraft_first]
    rw [if_pos ⟨hexit, trivial⟩]
    rfl
  obtain ⟨k, hk, -, hprints⟩ := (hlists _ hrun).2.2 (by rw [hone]; simp)
  rw [hone] at hk
  exact ⟨k, _, hone, hk, hprints⟩

end Smolvfs
