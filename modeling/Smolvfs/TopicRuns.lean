import Mathlib.Data.List.Chain
import Smolvfs.Topic

/-!
# Runs of publishes

A ref and a depot over any sequence of `cas_topic_publish` calls, with objects
disappearing in between.

* `topic_no_rollback`: the heads form one chain as long as no record is published
  while the record the ref names is missing, nor to an address another record
  stands at already.
* `topic_serves_own`: what the ref of a topic serves is of the topic as long as
  every record published while there is no head is.
-/

namespace Smolvfs

open Octets

/-! ## What can be read at an address -/

section
variable (check : SigCheck) (cs : Codecs)

/-- Objects disappear: each of the two copies of an address is as it was, or gone. -/
structure StoreLoses (st st' : Store) : Prop where
  pack : ∀ addr, packCopy cs st' addr = packCopy cs st addr ∨ packCopy cs st' addr = .error .enotfound
  loose : ∀ addr, looseCopy cs st' addr = looseCopy cs st addr ∨ looseCopy cs st' addr = .error .enotfound

/-- Every copy of the address that reads as a record reads as such a one. -/
def EachRecord (st : Store) (addr : Bytes) (P : Vrec → Prop) : Prop :=
  ∀ data, (packCopy cs st addr = .ok (tVrec, data) ∨ looseCopy cs st addr = .ok (tVrec, data)) →
    ∀ r, casVrecDecode check data = .ok r → P r

variable {check cs} {P : Vrec → Prop} {st st' : Store} {addr : Bytes}

theorem EachRecord.lose (h : EachRecord check cs st addr P) (hl : StoreLoses cs st st') :
    EachRecord check cs st' addr P := by
  intro data hcopy r hd
  refine h data ?_ r hd
  rcases hcopy with hp | hp
  · rcases hl.pack addr with heq | heq
    · exact .inl (heq.symm.trans hp)
    · rw [heq] at hp
      cases hp
  · rcases hl.loose addr with heq | heq
    · exact .inr (heq.symm.trans hp)
    · rw [heq] at hp
      cases hp

/-- So is the record a read finds. -/
theorem EachRecord.load (h : EachRecord check cs st addr P) (r : Vrec)
    (hload : loadRecord check cs noFaults st addr = .ok r) : P r := by
  unfold loadRecord at hload
  cases ho : casOpenObject cs noFaults st addr with
  | error rc =>
    rw [ho] at hload
    cases hload
  | ok obj =>
    obtain ⟨type, data⟩ := obj
    rw [ho] at hload
    simp only [] at hload
    split at hload
    · cases hload
    · next htype =>
      obtain rfl : type = tVrec := not_not.mp htype
      refine h data ?_ r hload
      by_cases hv : validHash addr = true
      · rw [casOpenObject_copies cs st addr hv] at ho
        cases hp : packCopy cs st addr with
        | ok obj =>
          rw [hp] at ho
          obtain rfl := Except.ok.inj ho
          exact .inl rfl
        | error rc =>
          rw [hp] at ho
          cases rc <;> first | exact .inr ho | cases ho
      · unfold casOpenObject at ho
        rw [if_pos (by simpa using hv)] at ho
        cases ho

/-- A record that is stored is what can be read at its address, when what stood there before is. -/
theorem eachRecord_stored (rec : Bytes) (cand : Vrec) (now : Int) (hd : casVrecDecode check rec = .ok cand)
    (hP : P cand) (hold : ¬ Fresh st (vrecAddr rec) → EachRecord check cs st (vrecAddr rec) P) :
    EachRecord check cs (if Fresh st (vrecAddr rec) then st.setLoose (vrecAddr rec) ⟨rawFile (tVrec, rec), now⟩ else st)
      (vrecAddr rec) P := by
  split
  · next hf =>
    intro data hcopy r hr
    have hp : packCopy cs st (vrecAddr rec) = .error .enotfound :=
      (packCopy_enotfound_iff cs st _ (validHash_vrecAddr rec)).mpr hf.2
    rw [packCopy_setLoose, looseCopy_setLoose_self, hp,
      looseRead_rawFile _ (storable_vrec rec (length_of_decoded check rec cand hd))] at hcopy
    rcases hcopy with h | h
    · cases h
    · obtain rfl : rec = data := (Prod.mk.inj (Except.ok.inj h)).2
      rw [hd] at hr
      obtain rfl := Except.ok.inj hr
      exact hP
  · next hf => exact hold hf

end

/-! ## The runs -/

section
variable (check : SigCheck) (cs : Codecs) (name : Bytes)

/-- A depot, and the heads the topic has had with their addresses, the last one first. -/
structure TopicWorld where
  ct : CasTree
  heads : List (Bytes × Vrec)

/-- A publish in a run: a record that is accepted is the next head. -/
def TopicWorld.publish (w : TopicWorld) (rec comment : Bytes) (timeS timeNs : Int) : TopicWorld :=
  let r := casTopicPublish check cs noFaults w.ct name rec comment timeS timeNs
  match casVrecDecode check rec with
  | .ok cand => if r.1 = .cas .ok then ⟨r.2, (vrecAddr rec, cand) :: w.heads⟩ else ⟨r.2, w.heads⟩
  | .error _ => ⟨r.2, w.heads⟩

inductive TopicAct
  | publish (rec : Bytes)
  | lose

inductive TopicStep : TopicWorld → TopicAct → TopicWorld → Prop
  | publish (w : TopicWorld) (rec comment : Bytes) (timeS timeNs : Int) :
      TopicStep w (.publish rec) (w.publish check cs name rec comment timeS timeNs)
  | lose (w : TopicWorld) (st : Store) (h : StoreLoses cs w.ct.store st) :
      TopicStep w .lose ⟨⟨st, w.ct.refs⟩, w.heads⟩

/-- Runs all of whose acts are taken in a depot that suits them. -/
def TopicRun (G : CasTree → TopicAct → Prop) : TopicWorld → TopicWorld → Prop :=
  Relation.ReflTransGen fun w w' => ∃ a, TopicStep check cs name w a w' ∧ G w.ct a

variable {check cs name}

/-- **A publish in a run** changes nothing, or puts the record on the head it found. -/
theorem TopicWorld.publish_cases (w : TopicWorld) (rec comment : Bytes) (timeS timeNs : Int) :
    let w' := w.publish check cs name rec comment timeS timeNs
    w' = w ∨ ∃ cand cur, casVrecDecode check rec = .ok cand ∧
      headOrNone (casTopicHead check cs noFaults w.ct name) = .ok cur ∧ casVrecSucceeds cur cand = .cas .ok ∧
      w'.heads = (vrecAddr rec, cand) :: w.heads ∧
      w'.ct.store = (if Fresh w.ct.store (vrecAddr rec) then
        w.ct.store.setLoose (vrecAddr rec) ⟨rawFile (tVrec, rec), timeS⟩ else w.ct.store) ∧
      refFile w'.ct.refs (name ++ dotRoot) = some (vrecAddr rec ++ [10]) ∧
      casTreeRefRead noFaults w'.ct.refs name = .ok (vrecAddr rec) := by
  intro w'
  rcases casTopicPublish_cases check cs noFaults w.ct name rec comment timeS timeNs with
    ⟨hok, cand, cur, addr, hp⟩ | ⟨hne, hct⟩
  · right
    have hlen := length_of_decoded check rec cand hp.decoded
    obtain rfl : vrecAddr rec = addr := Except.ok.inj ((casVrecAddress_eq rec hlen).symm.trans hp.address)
    have hw : w' = ⟨(casTopicPublish check cs noFaults w.ct name rec comment timeS timeNs).2,
        (vrecAddr rec, cand) :: w.heads⟩ := by
      show TopicWorld.publish _ _ _ _ _ _ _ _ = _
      unfold TopicWorld.publish
      simp only [hp.decoded, hok, if_true]
    have hput := hp.stored
    rw [casTreePutChecked_vrec rec hlen] at hput
    have hroot := (casTreeRefCommit_files _ _ _ _ _ _ _ hp.committed).2.2.2
    have hread := casTreeRefRead_commit _ _ _ _ _ _ hp.committed
    exact ⟨cand, cur, hp.decoded, hp.head, hp.succeeds, by rw [hw], by rw [hw, ← Except.ok.inj hput],
      by rw [hw]; exact hroot, by rw [hw]; exact hread⟩
  · left
    show TopicWorld.publish _ _ _ _ _ _ _ _ = _
    unfold TopicWorld.publish
    simp only [if_neg hne, hct]
    split <;> rfl

end

/-! ## The heads are one chain -/

section
variable (check : SigCheck) (cs : Codecs) (name : Bytes)

/-- A head follows on the one before it. -/
def Onto (new old : Bytes × Vrec) : Prop := Follows old.2 old.1 new.2

/-- Nothing is published while the record the ref names is missing, nor to an address where another record
can be read. -/
def HeadKept (ct : CasTree) : TopicAct → Prop
  | .publish rec => ∀ cand, casVrecDecode check rec = .ok cand →
      ¬ HeadMissing ct name ∧ (¬ Fresh ct.store (vrecAddr rec) → EachRecord check cs ct.store (vrecAddr rec) (· = cand))
  | .lose => True

/-- The ref is there; it may name a record that is the only one to be read at its address. -/
structure TopicStart (w : TopicWorld) : Prop where
  root : (refFile w.ct.refs (name ++ dotRoot)).isSome = true
  heads : w.heads = [] ∨ ∃ addr r, w.heads = [(addr, r)] ∧ casTreeRefRead noFaults w.ct.refs name = .ok addr ∧
    EachRecord check cs w.ct.store addr (· = r)

/-- The heads are a chain, and the ref names the last one. -/
structure Chained (w : TopicWorld) : Prop where
  root : (refFile w.ct.refs (name ++ dotRoot)).isSome = true
  chain : w.heads.IsChain Onto
  last : ∀ addr r, w.heads.head? = some (addr, r) → casTreeRefRead noFaults w.ct.refs name = .ok addr ∧
    EachRecord check cs w.ct.store addr (· = r)

variable {check cs name}

theorem TopicStart.chained {w : TopicWorld} (h : TopicStart check cs name w) : Chained check cs name w := by
  rcases h.heads with heads | ⟨addr, r, heads, hread, heach⟩
  · exact ⟨h.root, by rw [heads]; exact .nil, by simp [heads]⟩
  · refine ⟨h.root, by rw [heads]; exact .singleton _, ?_⟩
    intro addr' r' heq
    rw [heads] at heq
    obtain ⟨rfl, rfl⟩ := Prod.mk.inj (Option.some.inj heq)
    exact ⟨hread, heach⟩

theorem chained_publish {w : TopicWorld} (rec comment : Bytes) (timeS timeNs : Int) (h : Chained check cs name w)
    (hg : HeadKept check cs name w.ct (.publish rec)) :
    Chained check cs name (w.publish check cs name rec comment timeS timeNs) := by
  rcases w.publish_cases rec comment timeS timeNs with heq | ⟨cand, cur, hd, hh, hs, hheads, hst, hroot, hread⟩
  · rw [heq]
    exact h
  · obtain ⟨hkept, hold⟩ := hg cand hd
    refine ⟨by rw [hroot]; rfl, ?_, ?_⟩
    · rw [hheads]
      cases cur with
      | none => exact absurd ((headOrNone_none_iff check cs w.ct name h.root).mp hh) hkept
      | some cur =>
        obtain ⟨cur, addr⟩ := cur
        obtain ⟨hr, hload⟩ := headOrNone_some check cs w.ct name noFaults cur addr hh
        cases hw : w.heads with
        | nil => exact .singleton _
        | cons last tl =>
          -- what the publish read is the last head
          obtain ⟨hr', heach⟩ := h.last last.1 last.2 (by rw [hw]; rfl)
          obtain rfl : addr = last.1 := Except.ok.inj (hr.symm.trans hr')
          obtain rfl : cur = last.2 := heach.load cur hload
          refine .cons_cons ((casVrecSucceeds_iff _ _ cand).mp hs) ?_
          rw [← hw]
          exact h.chain
    · intro addr r heq
      rw [hheads] at heq
      obtain ⟨rfl, rfl⟩ := Prod.mk.inj (Option.some.inj heq)
      refine ⟨hread, ?_⟩
      rw [hst]
      exact eachRecord_stored rec cand timeS hd rfl hold

/-- **Every step keeps the chain.** -/
theorem chained_step {w w' : TopicWorld} {a : TopicAct} (h : Chained check cs name w)
    (hs : TopicStep check cs name w a w') (hg : HeadKept check cs name w.ct a) : Chained check cs name w' := by
  cases hs with
  | publish rec comment timeS timeNs => exact chained_publish rec comment timeS timeNs h hg
  | lose st hl =>
    refine ⟨h.root, h.chain, ?_⟩
    intro addr r heq
    obtain ⟨hread, heach⟩ := h.last addr r heq
    exact ⟨hread, heach.lose hl⟩

theorem chained_run {w w' : TopicWorld} (h : Chained check cs name w)
    (hrun : TopicRun check cs name (HeadKept check cs name) w w') : Chained check cs name w' := by
  induction hrun with
  | refl => exact h
  | tail _ hstep ih =>
    obtain ⟨a, hs, hg⟩ := hstep
    exact chained_step ih hs hg

variable (check cs name)

end

/-! ## What the ref of a topic serves -/

section
variable (check : SigCheck) (cs : Codecs) (name : Bytes) (t : Bytes)

/-- Where there is no head, what is published is of the topic; and a record of the topic is not published to an
address where one of another topic can be read. -/
def HeadOwn (ct : CasTree) : TopicAct → Prop
  | .publish rec => ∀ cand, casVrecDecode check rec = .ok cand →
      (refFile ct.refs (name ++ dotRoot) = none ∨ HeadMissing ct name → cand.topicId = t) ∧
      (cand.topicId = t → ¬ Fresh ct.store (vrecAddr rec) →
        EachRecord check cs ct.store (vrecAddr rec) fun r => r.topicId = t)
  | .lose => True

/-- The name is the one of the topic, and there is no such ref. -/
structure OwnStart (outsz : Nat) (label : Bytes) (ct : CasTree) : Prop where
  named : casTopicRefName outsz t label = .ok name
  absent : refFile ct.refs (name ++ dotRoot) = none

/-- What can be read where the ref points is of the topic. -/
def Serves (ct : CasTree) : Prop :=
  ∀ addr, casTreeRefRead noFaults ct.refs name = .ok addr →
    EachRecord check cs ct.store addr fun r => r.topicId = t

variable {check cs name t}

theorem OwnStart.serves {outsz : Nat} {label : Bytes} {ct : CasTree} (h : OwnStart name t outsz label ct) :
    Serves check cs name t ct := by
  intro addr hread
  unfold casTreeRefRead at hread
  rw [h.absent] at hread
  split at hread <;> cases hread

theorem Serves.head {ct : CasTree} (h : Serves check cs name t ct) {cur : Vrec} {addr : Bytes}
    (hh : headOrNone (casTopicHead check cs noFaults ct name) = .ok (some (cur, addr))) : cur.topicId = t := by
  obtain ⟨hread, hload⟩ := headOrNone_some check cs ct name noFaults cur addr hh
  exact (h addr hread).load cur hload

/-- **Every step keeps the ref at records of the topic.** -/
theorem serves_step {w w' : TopicWorld} {a : TopicAct} (h : Serves check cs name t w.ct)
    (hs : TopicStep check cs name w a w') (hg : HeadOwn check cs name t w.ct a) : Serves check cs name t w'.ct := by
  cases hs with
  | publish rec comment timeS timeNs =>
    rcases @TopicWorld.publish_cases check cs name w rec comment timeS timeNs with
      heq | ⟨cand, cur, hd, hh, hsucc, -, hst, -, hread⟩
    · rw [heq]
      exact h
    · obtain ⟨hnew, hold⟩ := hg cand hd
      have ht : cand.topicId = t := by
        cases cur with
        | none =>
          apply hnew
          by_cases hroot : (refFile w.ct.refs (name ++ dotRoot)).isSome = true
          · exact .inr ((headOrNone_none_iff check cs w.ct name hroot).mp hh)
          · exact .inl (by simpa using hroot)
        | some cur =>
          obtain ⟨cur, addr⟩ := cur
          rw [((casVrecSucceeds_iff cur addr cand).mp hsucc).topic]
          exact h.head hh
      intro addr hr
      obtain rfl : addr = vrecAddr rec := Except.ok.inj (hr.symm.trans hread)
      rw [hst]
      exact eachRecord_stored rec cand timeS hd ht (hold ht)
  | lose st hl => exact fun addr hread => (h addr hread).lose hl

theorem serves_run {w w' : TopicWorld} (h : Serves check cs name t w.ct)
    (hrun : TopicRun check cs name (HeadOwn check cs name t) w w') : Serves check cs name t w'.ct := by
  induction hrun with
  | refl => exact h
  | tail _ hstep ih =>
    obtain ⟨a, hs, hg⟩ := hstep
    exact serves_step ih hs hg

variable (check cs name t)

/-- **The ref of a topic serves records of the topic only**, from a depot without the ref on, where every record
that is published while there is no head is of the topic, and none goes to an address another stands at. -/
theorem topic_serves_own (outsz : Nat) (label : Bytes) (w w' : TopicWorld)
    (hs : OwnStart name t outsz label w.ct) (hrun : TopicRun check cs name (HeadOwn check cs name t) w w')
    (r : Vrec) (addr : Bytes) (hh : casTopicHead check cs noFaults w'.ct name = .ok (r, addr)) : r.topicId = t := by
  have hserves := serves_run (@OwnStart.serves check cs _ _ _ _ _ hs) hrun
  have hcur : headOrNone (casTopicHead check cs noFaults w'.ct name) = .ok (some (r, addr)) := by
    rw [hh]
    rfl
  exact hserves.head hcur

end

/-! ## The first record of a ref -/

section
variable (check : SigCheck) (cs : Codecs) (st : Store) (name rec : Bytes) (cand : Vrec)

theorem headOrNone_absent (hn : validRefName name = true) :
    headOrNone (casTopicHead check cs noFaults ⟨st, none⟩ name) = .ok none := by
  unfold casTopicHead casTreeRefRead
  rw [if_neg (by simp [hn])]
  rfl

/-- The depot in which the record was published under a new name; not to be unfolded at a given record. -/
@[irreducible] def publishedFirst : CasTree := (casTopicPublish check cs noFaults ⟨st, none⟩ name rec [] 0 0).2

variable (hn : validRefName name = true) (hd : casVrecDecode check rec = .ok cand)
include hn hd

/-- Where there is no ref, any record is published, and it is the head then. -/
theorem publishedFirst_spec (hf : Fresh st (vrecAddr rec)) :
    (casTopicPublish check cs noFaults ⟨st, none⟩ name rec [] 0 0).1 = .cas .ok ∧
      (publishedFirst check cs st name rec).store = st.setLoose (vrecAddr rec) ⟨rawFile (tVrec, rec), 0⟩ ∧
      refFile (publishedFirst check cs st name rec).refs (name ++ dotRoot) = some (vrecAddr rec ++ [10]) ∧
      casTreeRefRead noFaults (publishedFirst check cs st name rec).refs name = .ok (vrecAddr rec) := by
  obtain ⟨refs, hc, hrun⟩ := casTopicPublish_no_head check cs ⟨st, none⟩ name rec [] 0 0 cand hn hd
    (headOrNone_absent check cs st name hn)
  unfold publishedFirst
  rw [hrun, if_pos hf]
  exact ⟨rfl, rfl, (casTreeRefCommit_files _ _ _ _ _ _ _ hc).2.2.2, casTreeRefRead_commit _ _ _ _ _ _ hc⟩

theorem casTopicHead_first (hf : Fresh st (vrecAddr rec)) :
    casTopicHead check cs noFaults (publishedFirst check cs st name rec) name = .ok (cand, vrecAddr rec) := by
  obtain ⟨-, hst, -, hread⟩ := publishedFirst_spec check cs st name rec cand hn hd hf
  unfold casTopicHead
  rw [hread, hst]
  simp only [loadRecord_stored check cs st rec 0 (length_of_decoded check rec cand hd) hf, hd, Except.map]

/-- From there on the topic has a head. -/
theorem topicStart_first (hf : Fresh st (vrecAddr rec)) :
    TopicStart check cs name ⟨publishedFirst check cs st name rec, [(vrecAddr rec, cand)]⟩ := by
  obtain ⟨-, hst, hroot, hread⟩ := publishedFirst_spec check cs st name rec cand hn hd hf
  have heach := @eachRecord_stored check cs (· = cand) st rec cand 0 hd rfl fun h => absurd hf h
  rw [if_pos hf, ← hst] at heach
  exact ⟨by rw [hroot]; rfl, .inr ⟨_, cand, rfl, hread, heach⟩⟩

theorem not_headMissing_first (hf : Fresh st (vrecAddr rec)) :
    ¬ HeadMissing (publishedFirst check cs st name rec) name := by
  obtain ⟨-, hst, -, hread⟩ := publishedFirst_spec check cs st name rec cand hn hd hf
  rintro ⟨addr, hr, hv, hex⟩
  obtain rfl : addr = vrecAddr rec := Except.ok.inj (hr.symm.trans hread)
  rw [hst] at hex
  simp [casExists, validHash_vrecAddr, Store.hasLoose, Store.setLoose] at hex

/-- The record may be published again. -/
theorem topicRun_again (hf : Fresh st (vrecAddr rec)) :
    TopicRun check cs name (HeadKept check cs name) ⟨publishedFirst check cs st name rec, [(vrecAddr rec, cand)]⟩
      (TopicWorld.publish check cs name ⟨publishedFirst check cs st name rec, [(vrecAddr rec, cand)]⟩ rec [] 0 0) := by
  refine .single ⟨.publish rec, .publish _ _ _ _ _, ?_⟩
  intro cand' hd'
  obtain rfl : cand = cand' := Except.ok.inj (hd.symm.trans hd')
  exact ⟨not_headMissing_first check cs st name rec cand hn hd hf,
    fun _ => ((topicStart_first check cs st name rec cand hn hd hf).chained.last _ _ rfl).2⟩

/-- A record of the topic is a first one for its ref. -/
theorem topicRun_own (hf : Fresh st (vrecAddr rec)) :
    TopicRun check cs name (HeadOwn check cs name cand.topicId) ⟨⟨st, none⟩, []⟩
      ⟨publishedFirst check cs st name rec, [(vrecAddr rec, cand)]⟩ := by
  obtain ⟨hok, -⟩ := publishedFirst_spec check cs st name rec cand hn hd hf
  have hstep := @TopicStep.publish check cs name ⟨⟨st, none⟩, []⟩ rec [] 0 0
  unfold TopicWorld.publish at hstep
  simp only [hd, hok, if_true] at hstep
  unfold publishedFirst
  refine .single ⟨.publish rec, hstep, ?_⟩
  intro cand' hd'
  obtain rfl : cand = cand' := Except.ok.inj (hd.symm.trans hd')
  exact ⟨fun _ => rfl, fun _ h => absurd hf h⟩

end

/-- The room `cas_topic_ref_name` asks for. -/
def topicNameSize : Nat := CAS_HASH_HEX + 2 + CAS_TOPIC_LABEL_MAX + 1

/-- The name of a topic without a label, in a depot without refs. -/
theorem ownStart_plain (t : Bytes) (ht : t.length = CAS_HASH_LEN) (st : Store) :
    OwnStart (toHex t) t topicNameSize [] ⟨st, none⟩ := by
  refine ⟨?_, rfl⟩
  unfold casTopicRefName
  rw [if_neg (by simp)]
  simp only [if_true]
  rw [if_neg]
  rw [length_toHex, ht]
  decide

/-! ## A record of the key of zeros -/

/-- A check that lets every signature through. -/
def anySig : SigCheck := fun _ _ _ => true

def zeroKey : Bytes := List.replicate 32 0

def firstVrec : Vrec := ⟨[], zeroKey, 1, 0, zeroHash, []⟩

def firstRec : Bytes :=
  vrecSigned firstVrec (List.replicate CAS_HASH_LEN 0) (List.replicate CAS_HASH_LEN 0) ++ List.replicate 64 (0 : UInt8)

theorem casVrecEncode_firstRec : casVrecEncode (fun _ => List.replicate 64 0) firstVrec = .ok firstRec := by
  have hroot : casHexDecode firstVrec.root = some (List.replicate CAS_HASH_LEN 0) := by decide
  unfold casVrecEncode
  rw [if_neg (by decide), if_neg (by decide), hroot]
  rfl

theorem firstRec_decodes :
    ∃ cand, casVrecDecode anySig firstRec = .ok cand ∧ cand.topicId = casSignTopicId zeroKey ∧ cand.seq = 1 := by
  obtain ⟨cand, hd, ht, -, hseq, -⟩ := casVrecDecode_encode anySig _ firstVrec firstRec (by decide)
    (fun _ => List.length_replicate) (fun _ => rfl) casVrecEncode_firstRec
  exact ⟨cand, hd, ht, hseq⟩

def topicT : Bytes := (lit ['t']).bytes

/-- A ref that names a record that is not there. -/
def lostHead : CasTree := ⟨Store.empty, some ((∅ : RefFiles).insert (topicT ++ dotRoot) (zeroHash ++ [10]))⟩

/-- The topic of the key of zeros, under its own name. -/
theorem topic_serves_own_first : ∃ t w' r, OwnStart (toHex t) t topicNameSize [] ⟨Store.empty, none⟩ ∧
    TopicRun anySig [] (toHex t) (HeadOwn anySig [] (toHex t) t) ⟨⟨Store.empty, none⟩, []⟩ w' ∧
    casTopicHead anySig [] noFaults w'.ct (toHex t) = .ok (r, vrecAddr firstRec) ∧ r.topicId = t := by
  obtain ⟨cand, hd, ht, -⟩ := firstRec_decodes
  have hl : cand.topicId.length = CAS_HASH_LEN := by
    rw [ht]
    exact length_casDigest _
  have hs := ownStart_plain cand.topicId hl Store.empty
  have hn := validRefName_topic topicNameSize cand.topicId [] _ hl hs.named
  have hrun := topicRun_own anySig [] Store.empty (toHex cand.topicId) firstRec cand hn hd (fresh_empty _)
  have hh := casTopicHead_first anySig [] Store.empty (toHex cand.topicId) firstRec cand hn hd (fresh_empty _)
  exact ⟨cand.topicId, _, cand, hs, hrun, hh,
    topic_serves_own anySig [] _ cand.topicId topicNameSize [] _ _ hs hrun cand _ hh⟩

/-- A topic whose identity is not that of the key of zeros. -/
def otherTopic : Bytes := (casSignTopicId zeroKey).map (· + 1)

theorem map_succ_ne (b : Bytes) (h : b ≠ []) : b ≠ b.map (· + 1) := by
  intro heq
  cases b with
  | nil => exact h rfl
  | cons c b =>
    have h0 : c = c + 1 := (List.cons.inj heq).1
    simp at h0

/-- The first record under the name of a topic may be of another. -/
theorem topic_taken_over :
    OwnStart (toHex otherTopic) otherTopic topicNameSize [] ⟨Store.empty, none⟩ ∧
      (casTopicPublish anySig [] noFaults ⟨Store.empty, none⟩ (toHex otherTopic) firstRec [] 0 0).1 = .cas .ok ∧
      ∃ r, casTopicHead anySig [] noFaults (publishedFirst anySig [] Store.empty (toHex otherTopic) firstRec)
          (toHex otherTopic) = .ok (r, vrecAddr firstRec) ∧ r.topicId ≠ otherTopic := by
  have hlen : (casSignTopicId zeroKey).length = CAS_HASH_LEN := length_casDigest _
  have hl : otherTopic.length = CAS_HASH_LEN := (List.length_map _).trans hlen
  have hs := ownStart_plain otherTopic hl Store.empty
  have hn := validRefName_topic topicNameSize otherTopic [] _ hl hs.named
  obtain ⟨cand, hd, ht, -⟩ := firstRec_decodes
  refine ⟨hs, (publishedFirst_spec anySig [] Store.empty _ firstRec cand hn hd (fresh_empty _)).1, cand,
    casTopicHead_first anySig [] Store.empty _ firstRec cand hn hd (fresh_empty _), ?_⟩
  rw [ht]
  refine map_succ_ne _ fun hnil => ?_
  rw [hnil] at hlen
  cases hlen

end Smolvfs
