import Smolvfs.TopicRuns

/-!
# Publishers side by side

Any number of publishers on one ref of one depot.  A `cas_topic_publish` call takes
four steps: it reads the head, checks the succession, stores the record and commits
the ref; the steps of the calls come in any order.  The lock of the ref is held for
the commit alone.

`publishers_chain`: the heads form one chain as long as every commit finds the ref
as its call read it.
-/

namespace Smolvfs

open Octets

/-! ## Calls and their steps -/

/-- A call of `cas_topic_publish` that has read the head. -/
structure PublishCall where
  record : Bytes
  comment : Bytes
  cand : Vrec
  seen : Option (Vrec × Bytes)

/-- Where a publisher stands. -/
inductive Publisher
  | idle
  | read (c : PublishCall)
  | checked (c : PublishCall)
  | stored (c : PublishCall) (addr : Bytes)

/-- A depot with its publishers, and the heads the topic has had, the last one first. -/
structure PublishWorld (ι : Type) where
  ct : CasTree
  heads : List (Bytes × Vrec)
  pub : ι → Publisher

inductive PublishAct
  | commit (c : PublishCall)
  | other

section
variable (check : SigCheck) (cs : Codecs) (name : Bytes) {ι : Type} [DecidableEq ι]

/-- One step of one publisher. -/
inductive PublishStep : PublishWorld ι → PublishAct → PublishWorld ι → Prop
  | read (w : PublishWorld ι) (i : ι) (c : PublishCall) (hi : w.pub i = .idle)
      (hd : casVrecDecode check c.record = .ok c.cand)
      (hh : headOrNone (casTopicHead check cs noFaults w.ct name) = .ok c.seen) :
      PublishStep w .other ⟨w.ct, w.heads, Function.update w.pub i (.read c)⟩
  | check (w : PublishWorld ι) (i : ι) (c : PublishCall) (hi : w.pub i = .read c)
      (hs : casVrecSucceeds c.seen c.cand = .cas .ok) :
      PublishStep w .other ⟨w.ct, w.heads, Function.update w.pub i (.checked c)⟩
  -- what is stored stays readable: the record can be read at its address
  | store (w : PublishWorld ι) (i : ι) (c : PublishCall) (addr : Bytes) (now : Int) (st : Store)
      (hi : w.pub i = .checked c) (ha : casVrecAddress c.record = .ok addr)
      (hp : casTreePutChecked noFaults w.ct.store tVrec c.record addr now = .ok st)
      (hl : loadRecord check cs noFaults st addr = .ok c.cand) :
      PublishStep w .other ⟨⟨st, w.ct.refs⟩, w.heads, Function.update w.pub i (.stored c addr)⟩
  | commit (w : PublishWorld ι) (i : ι) (c : PublishCall) (addr : Bytes) (timeS timeNs : Int) (refs : Refs)
      (hi : w.pub i = .stored c addr)
      (hc : casTreeRefCommit w.ct.refs name addr c.comment timeS timeNs = .ok refs) :
      PublishStep w (.commit c)
        ⟨⟨w.ct.store, refs⟩, (addr, c.cand) :: w.heads, Function.update w.pub i .idle⟩
  -- a call that is refused, or fails, or dies
  | leave (w : PublishWorld ι) (i : ι) :
      PublishStep w .other ⟨w.ct, w.heads, Function.update w.pub i .idle⟩

/-- Runs, the commits of which are taken in a depot that suits them. -/
def PublishRun (G : CasTree → PublishAct → Prop) : PublishWorld ι → PublishWorld ι → Prop :=
  Relation.ReflTransGen fun w w' => ∃ a, PublishStep check cs name w a w' ∧ G w.ct a

/-- The ref is as the call read it. -/
def RefAsRead (ct : CasTree) : PublishAct → Prop
  | .commit c =>
    match c.seen with
    | none => refFile ct.refs (name ++ dotRoot) = none
    | some (_, addr) => casTreeRefRead noFaults ct.refs name = .ok addr
  | .other => True

/-- Nobody has begun, and there is no ref yet, or it names a record that can be read. -/
structure PublishStart (w : PublishWorld ι) : Prop where
  idle : ∀ i, w.pub i = .idle
  heads : w.heads = [] ∧ refFile w.ct.refs (name ++ dotRoot) = none ∨
    ∃ addr r, w.heads = [(addr, r)] ∧ casTreeRefRead noFaults w.ct.refs name = .ok addr ∧
      loadRecord check cs noFaults w.ct.store addr = .ok r

/-- A head succeeds the one before it. -/
def Succeeds (new old : Bytes × Vrec) : Prop := casVrecSucceeds (some (old.2, old.1)) new.2 = .cas .ok

end

/-! ## What stays readable -/

section
variable (check : SigCheck) (cs : Codecs)

/-- A record that can be read is not lost by a put. -/
theorem loadRecord_put (st st' : Store) (rec addr addr' : Bytes) (now : Int) (r : Vrec)
    (hlen : rec.length = CAS_VREC_LEN) (ha : casVrecAddress rec = .ok addr)
    (hp : casTreePutChecked noFaults st tVrec rec addr now = .ok st')
    (hl : loadRecord check cs noFaults st addr' = .ok r) : loadRecord check cs noFaults st' addr' = .ok r := by
  obtain rfl : vrecAddr rec = addr := Except.ok.inj ((casVrecAddress_eq rec hlen).symm.trans ha)
  rw [casTreePutChecked_vrec rec hlen] at hp
  obtain rfl := Except.ok.inj hp
  split
  · next hf =>
    have hne : addr' ≠ vrecAddr rec := by
      rintro rfl
      have hex : casExists st (vrecAddr rec) = false := (fresh_iff st _ (validHash_vrecAddr rec)).mp hf
      rw [(loadRecord_enotfound_iff check cs st _).mpr ⟨validHash_vrecAddr rec, hex⟩] at hl
      cases hl
    rw [← hl]
    unfold loadRecord
    rw [casOpenObject_congr cs st addr' noFaults (st.setLoose (vrecAddr rec) ⟨rawFile (tVrec, rec), now⟩) rfl
      (setLoose_lookup_ne st _ addr' _ hne)]
  · exact hl

/-- The record of a call decodes, and the head it has read stays. -/
structure PublishCall.Sound (st : Store) (c : PublishCall) : Prop where
  decoded : casVrecDecode check c.record = .ok c.cand
  seen : ∀ cur addr, c.seen = some (cur, addr) → loadRecord check cs noFaults st addr = .ok cur

/-- What a publisher has found out. -/
def Publisher.Sound (st : Store) : Publisher → Prop
  | .idle => True
  | .read c => c.Sound check cs st
  | .checked c => c.Sound check cs st ∧ casVrecSucceeds c.seen c.cand = .cas .ok
  | .stored c addr => c.Sound check cs st ∧ casVrecSucceeds c.seen c.cand = .cas .ok ∧
      loadRecord check cs noFaults st addr = .ok c.cand

variable {check cs} {st st' : Store}

/-- It holds on while records that can be read stay. -/
theorem Publisher.Sound.keep {p : Publisher} (h : p.Sound check cs st)
    (hkeep : ∀ addr r, loadRecord check cs noFaults st addr = .ok r → loadRecord check cs noFaults st' addr = .ok r) :
    p.Sound check cs st' := by
  have hcall : ∀ c : PublishCall, c.Sound check cs st → c.Sound check cs st' := fun c hc =>
    ⟨hc.decoded, fun cur addr hs => hkeep addr cur (hc.seen cur addr hs)⟩
  cases p with
  | idle => trivial
  | read c => exact hcall c h
  | checked c => exact ⟨hcall c h.1, h.2⟩
  | stored c addr => exact ⟨hcall c h.1, h.2.1, hkeep addr _ h.2.2⟩

end

/-! ## The chain -/

section
variable (check : SigCheck) (cs : Codecs) (name : Bytes) {ι : Type}

/-- The heads are a chain, the ref names the last one, which can be read, and no publisher is wrong about the
records it has seen. -/
structure PublishWorld.Inv (w : PublishWorld ι) : Prop where
  chain : w.heads.IsChain Succeeds
  first : w.heads = [] → refFile w.ct.refs (name ++ dotRoot) = none
  last : ∀ addr r, w.heads.head? = some (addr, r) → casTreeRefRead noFaults w.ct.refs name = .ok addr ∧
    loadRecord check cs noFaults w.ct.store addr = .ok r
  sound : ∀ i, (w.pub i).Sound check cs w.ct.store

variable {check cs name}

theorem PublishStart.inv {w : PublishWorld ι} (h : PublishStart check cs name w) : w.Inv check cs name := by
  have hsound : ∀ i, (w.pub i).Sound check cs w.ct.store := by
    intro i
    rw [h.idle i]
    trivial
  rcases h.heads with ⟨heads, hroot⟩ | ⟨addr, r, heads, hread, hload⟩
  · exact ⟨by rw [heads]; exact .nil, fun _ => hroot, by simp [heads], hsound⟩
  · refine ⟨by rw [heads]; exact .singleton _, by simp [heads], ?_, hsound⟩
    intro addr' r' heq
    rw [heads] at heq
    obtain ⟨rfl, rfl⟩ := Prod.mk.inj (Option.some.inj heq)
    exact ⟨hread, hload⟩

/-- Only one publisher moves. -/
theorem sound_update [DecidableEq ι] {w : PublishWorld ι} {st : Store} (i : ι) (p : Publisher)
    (h : ∀ j, (w.pub j).Sound check cs st) (hp : p.Sound check cs st) (j : ι) :
    (Function.update w.pub i p j).Sound check cs st := by
  by_cases hj : j = i
  · subst hj
    rw [Function.update_self]
    exact hp
  · rw [Function.update_of_ne hj]
    exact h j

/-- **A commit of a call that had read a head succeeds the last one** exactly when the ref is as it read it. -/
theorem succeeds_last_iff {w : PublishWorld ι} (h : w.Inv check cs name) (c : PublishCall) (addr : Bytes)
    (hc : c.Sound check cs w.ct.store) (hs : casVrecSucceeds c.seen c.cand = .cas .ok) (seen : Vrec × Bytes)
    (hseen : c.seen = some seen) (last : Bytes × Vrec) (hlast : w.heads.head? = some last) :
    Succeeds (addr, c.cand) last ↔ RefAsRead name w.ct (.commit c) := by
  obtain ⟨cur, a⟩ := seen
  obtain ⟨hread, hload⟩ := h.last last.1 last.2 hlast
  unfold RefAsRead
  simp only [hseen]
  rw [hseen] at hs
  constructor
  · intro hsucc
    have hprev := ((casVrecSucceeds_iff cur a c.cand).mp hs).prev
    have hprev' := ((casVrecSucceeds_iff last.2 last.1 c.cand).mp hsucc).prev
    rw [hread, ← hprev, hprev']
  · intro hg
    obtain rfl : a = last.1 := Except.ok.inj (hg.symm.trans hread)
    obtain rfl : cur = last.2 := Except.ok.inj ((hc.seen cur _ hseen).symm.trans hload)
    exact hs

/-- A commit of a call that finds the ref as it read it puts the record on the last head. -/
theorem succeeds_last {w : PublishWorld ι} (h : w.Inv check cs name) (c : PublishCall) (addr : Bytes)
    (hc : c.Sound check cs w.ct.store) (hs : casVrecSucceeds c.seen c.cand = .cas .ok)
    (hg : RefAsRead name w.ct (.commit c)) : ((addr, c.cand) :: w.heads).IsChain Succeeds := by
  cases hw : w.heads with
  | nil => exact .singleton _
  | cons last tl =>
    have hlast : w.heads.head? = some last := by rw [hw]; rfl
    have hsucc : Succeeds (addr, c.cand) last := by
      cases hseen : c.seen with
      | none =>
        -- the call found no ref, and there is one
        have hread := (h.last last.1 last.2 hlast).1
        unfold RefAsRead at hg
        simp only [hseen] at hg
        unfold casTreeRefRead at hread
        rw [hg] at hread
        split at hread <;> cases hread
      | some seen => exact (succeeds_last_iff h c addr hc hs seen hseen last hlast).mpr hg
    refine .cons_cons hsucc ?_
    rw [← hw]
    exact h.chain

/-- **Every step keeps the chain.** -/
theorem publishInv_step [DecidableEq ι] {w w' : PublishWorld ι} {a : PublishAct} (h : w.Inv check cs name)
    (hs : PublishStep check cs name w a w') (hg : RefAsRead name w.ct a) : w'.Inv check cs name := by
  cases hs with
  | read i c hi hd hh =>
    refine ⟨h.chain, h.first, h.last, sound_update i _ h.sound ⟨hd, fun cur addr hs => ?_⟩⟩
    rw [hs] at hh
    exact (headOrNone_some check cs w.ct name noFaults cur addr hh).2
  | check i c hi hs =>
    have hc := h.sound i
    rw [hi] at hc
    exact ⟨h.chain, h.first, h.last, sound_update i _ h.sound ⟨hc, hs⟩⟩
  | store i c addr now st hi ha hp hl =>
    have hc := h.sound i
    rw [hi] at hc
    have hkeep : ∀ addr' r, loadRecord check cs noFaults w.ct.store addr' = .ok r →
        loadRecord check cs noFaults st addr' = .ok r := fun addr' r =>
      loadRecord_put check cs _ st c.record addr addr' now r (length_of_decoded check _ _ hc.1.decoded) ha hp
    have hsound := fun j => (h.sound j).keep hkeep
    have hci := hsound i
    rw [hi] at hci
    refine ⟨h.chain, h.first, fun addr' r heq => ?_, sound_update i _ hsound ⟨hci.1, hci.2, hl⟩⟩
    obtain ⟨hread, hload⟩ := h.last addr' r heq
    exact ⟨hread, hkeep addr' r hload⟩
  | commit i c addr timeS timeNs refs hi hc =>
    obtain ⟨hcall, hsucc, hload⟩ : (Publisher.stored c addr).Sound check cs w.ct.store := by
      rw [← hi]
      exact h.sound i
    refine ⟨succeeds_last h c addr hcall hsucc hg, by simp, fun addr' r heq => ?_, sound_update i _ h.sound trivial⟩
    obtain ⟨rfl, rfl⟩ := Prod.mk.inj (Option.some.inj heq)
    exact ⟨casTreeRefRead_commit _ _ _ c.comment timeS timeNs hc, hload⟩
  | leave i => exact ⟨h.chain, h.first, h.last, sound_update i _ h.sound trivial⟩

theorem publishInv_run [DecidableEq ι] {w w' : PublishWorld ι} (h : w.Inv check cs name)
    (hrun : PublishRun check cs name (RefAsRead name) w w') : w'.Inv check cs name := by
  induction hrun with
  | refl => exact h
  | tail _ hstep ih =>
    obtain ⟨a, hs, hg⟩ := hstep
    exact publishInv_step ih hs hg

/-- A head has a greater number than the one before it, and so than all that came before. -/
theorem seq_pairwise (heads : List (Bytes × Vrec)) (h : heads.IsChain Succeeds) :
    (heads.map fun head => head.2.seq.toNat).Pairwise (· > ·) := by
  have htrans : Trans (fun a b : Bytes × Vrec => a.2.seq.toNat > b.2.seq.toNat)
      (fun a b : Bytes × Vrec => a.2.seq.toNat > b.2.seq.toNat)
      (fun a b : Bytes × Vrec => a.2.seq.toNat > b.2.seq.toNat) := ⟨fun hab hbc => Nat.lt_trans hbc hab⟩
  rw [List.pairwise_map]
  refine List.isChain_iff_pairwise.mp (h.imp fun new old hs => ?_)
  have := ((casVrecSucceeds_iff old.2 old.1 new.2).mp hs).seq
  omega

variable (check cs name)

/-- **The heads of the publishers form one chain** in every run in which a commit finds the ref as its call read
it, and their numbers only grow.  Where a call that had read a head is to commit next, its record succeeds the
last head exactly when the ref is still as it read it. -/
theorem publishers_chain [DecidableEq ι] (w w' : PublishWorld ι) (hs : PublishStart check cs name w)
    (hrun : PublishRun check cs name (RefAsRead name) w w') :
    w'.heads.IsChain Succeeds ∧ (w'.heads.map fun head => head.2.seq.toNat).Pairwise (· > ·) ∧
      ∀ i c addr seen last, w'.pub i = .stored c addr → c.seen = some seen → w'.heads.head? = some last →
        (Succeeds (addr, c.cand) last ↔ RefAsRead name w'.ct (.commit c)) := by
  have hinv := publishInv_run hs.inv hrun
  refine ⟨hinv.chain, seq_pairwise _ hinv.chain, ?_⟩
  intro i c addr seen last hi hseen hlast
  obtain ⟨hcall, hsucc, -⟩ : (Publisher.stored c addr).Sound check cs w'.ct.store := by
    rw [← hi]
    exact hinv.sound i
  exact succeeds_last_iff hinv c addr hcall hsucc seen hseen last hlast

end

/-! ## One publisher -/

section
variable (check : SigCheck) (cs : Codecs) (name : Bytes) {ι : Type} [DecidableEq ι]

/-- **Left alone, the steps of a call do what `casTopicPublish` does**, where its record can be read then. -/
theorem publish_alone (G : CasTree → PublishAct → Prop) (w : PublishWorld ι) (i : ι) (hi : w.pub i = .idle)
    (rec comment : Bytes) (timeS timeNs : Int) (ct' : CasTree) (cand : Vrec)
    (hd : casVrecDecode check rec = .ok cand)
    (hpub : casTopicPublish check cs noFaults w.ct name rec comment timeS timeNs = (.cas .ok, ct'))
    (hl : loadRecord check cs noFaults ct'.store (vrecAddr rec) = .ok cand)
    (hother : ∀ ct, G ct .other)
    (hcommit : ∀ st c, headOrNone (casTopicHead check cs noFaults w.ct name) = .ok c.seen →
      G ⟨st, w.ct.refs⟩ (.commit c)) :
    PublishRun check cs name G w ⟨ct', (vrecAddr rec, cand) :: w.heads, w.pub⟩ := by
  rcases casTopicPublish_cases check cs noFaults w.ct name rec comment timeS timeNs with
    ⟨-, cand', cur, addr, hp⟩ | ⟨hne, -⟩
  · obtain rfl : cand = cand' := Except.ok.inj (hd.symm.trans hp.decoded)
    obtain rfl : vrecAddr rec = addr :=
      Except.ok.inj ((casVrecAddress_eq rec (length_of_decoded check rec cand hd)).symm.trans hp.address)
    rw [hpub] at hp
    let c : PublishCall := ⟨rec, comment, cand, cur⟩
    have h1 := @PublishStep.read check cs name _ _ w i c hi hd hp.head
    have h2 := @PublishStep.check check cs name _ _
      ⟨w.ct, w.heads, Function.update w.pub i (.read c)⟩ i c (Function.update_self _ _ _) hp.succeeds
    have h3 := @PublishStep.store check cs name _ _
      ⟨w.ct, w.heads, Function.update (Function.update w.pub i (.read c)) i (.checked c)⟩ i c _ timeS ct'.store
      (Function.update_self _ _ _) hp.address hp.stored hl
    have h4 := @PublishStep.commit check cs name _ _
      ⟨⟨ct'.store, w.ct.refs⟩, w.heads, Function.update (Function.update (Function.update w.pub i (.read c)) i
        (.checked c)) i (.stored c (vrecAddr rec))⟩ i c _ timeS timeNs ct'.refs (Function.update_self _ _ _)
          hp.committed
    simp only [Function.update_idem] at h2 h3 h4
    have hidle : Function.update w.pub i .idle = w.pub := by
      rw [← hi]
      exact Function.update_eq_self i w.pub
    rw [hidle] at h4
    exact (((Relation.ReflTransGen.single ⟨_, h1, hother _⟩).tail ⟨_, h2, hother _⟩).tail ⟨_, h3, hother _⟩).tail
      ⟨_, h4, hcommit _ c hp.head⟩
  · rw [hpub] at hne
    exact absurd rfl hne

end

/-! ## Two publishers -/

section
variable (check : SigCheck) (cs : Codecs) (name : Bytes) (st : Store) (hn : validRefName name = true)
include hn

/-- A publish to a ref that is not there is a run of one publisher. -/
theorem publish_first (G : CasTree → PublishAct → Prop) (hother : ∀ ct, G ct .other)
    (hcommit : ∀ st c, c.seen = none → G ⟨st, none⟩ (.commit c)) {ι : Type} [DecidableEq ι] (pub : ι → Publisher)
    (i : ι) (hi : pub i = .idle) (rec : Bytes) (cand : Vrec) (hd : casVrecDecode check rec = .ok cand)
    (hf : Fresh st (vrecAddr rec)) :
    PublishRun check cs name G ⟨⟨st, none⟩, [], pub⟩
      ⟨publishedFirst check cs st name rec, [(vrecAddr rec, cand)], pub⟩ := by
  obtain ⟨hok, hst, -⟩ := publishedFirst_spec check cs st name rec cand hn hd hf
  refine publish_alone check cs name G ⟨⟨st, none⟩, [], pub⟩ i hi rec [] 0 0 _ cand hd (Prod.ext hok ?_) ?_ hother ?_
  · unfold publishedFirst
    rfl
  · rw [hst]
    exact (loadRecord_stored check cs st rec 0 (length_of_decoded check rec cand hd) hf).trans hd
  · intro st' c hc
    rw [headOrNone_absent check cs st name hn] at hc
    exact hcommit st' c (Except.ok.inj hc).symm

/-- Two records stored one after the other in a depot that has neither can both be read. -/
theorem store_second (recA recB : Bytes) (candA candB : Vrec) (hdA : casVrecDecode check recA = .ok candA)
    (hdB : casVrecDecode check recB = .ok candB) (hfA : Fresh st (vrecAddr recA)) (hfB : Fresh st (vrecAddr recB))
    (hcol : vrecAddr recA = vrecAddr recB → candA = candB) :
    ∃ st', casTreePutChecked noFaults (publishedFirst check cs st name recA).store tVrec recB (vrecAddr recB) 0 =
        .ok st' ∧ loadRecord check cs noFaults st' (vrecAddr recB) = .ok candB := by
  have hlB := length_of_decoded check recB candB hdB
  obtain ⟨-, hst, -⟩ := publishedFirst_spec check cs st name recA candA hn hdA hfA
  rw [casTreePutChecked_vrec recB hlB, hst]
  refine ⟨_, rfl, ?_⟩
  split
  · next hf => exact (loadRecord_stored check cs _ recB 0 hlB hf).trans hdB
  · next hf =>
    by_cases heq : vrecAddr recA = vrecAddr recB
    · rw [← heq, ← hcol heq]
      exact (loadRecord_stored check cs st recA 0 (length_of_decoded check recA candA hdA) hfA).trans hdA
    · refine absurd ⟨?_, hfB.2⟩ hf
      have hother : vrecAddr recB ≠ vrecAddr recA := fun h => heq h.symm
      unfold Store.hasLoose
      rw [setLoose_lookup_ne st _ _ _ hother]
      exact hfB.1

/-- **Two publishers that both find no ref** both become its head, one after the other. -/
theorem publish_race (recA recB : Bytes) (candA candB : Vrec) (hdA : casVrecDecode check recA = .ok candA)
    (hdB : casVrecDecode check recB = .ok candB) (hfA : Fresh st (vrecAddr recA)) (hfB : Fresh st (vrecAddr recB))
    (hcol : vrecAddr recA = vrecAddr recB → candA = candB) :
    ∃ ct, PublishRun check cs name (fun _ _ => True) ⟨⟨st, none⟩, [], fun _ : Bool => .idle⟩
      ⟨ct, [(vrecAddr recB, candB), (vrecAddr recA, candA)], fun _ => .idle⟩ := by
  let c : PublishCall := ⟨recB, [], candB, none⟩
  have hlB := length_of_decoded check recB candB hdB
  -- the first reads, the second publishes, the first goes on
  have h1 := @PublishStep.read check cs name _ _ ⟨⟨st, none⟩, [], fun _ : Bool => .idle⟩ false c rfl hdB
    (headOrNone_absent check cs st name hn)
  have h2 := publish_first check cs name st hn (fun _ _ => True) (fun _ => trivial) (fun _ _ _ => trivial)
    (Function.update (fun _ : Bool => .idle) false (.read c)) true rfl recA candA hdA hfA
  obtain ⟨st', hput, hload⟩ := store_second check cs name st hn recA recB candA candB hdA hdB hfA hfB hcol
  have h3 := @PublishStep.check check cs name _ _
    ⟨publishedFirst check cs st name recA, [(vrecAddr recA, candA)],
      Function.update (fun _ : Bool => .idle) false (.read c)⟩ false c rfl rfl
  have h4 := @PublishStep.store check cs name _ _
    ⟨publishedFirst check cs st name recA, [(vrecAddr recA, candA)], Function.update (Function.update
      (fun _ : Bool => .idle) false (.read c)) false (.checked c)⟩ false c _ 0 st' rfl
    (casVrecAddress_eq recB hlB) hput hload
  obtain ⟨refs, hcommit⟩ := casTreeRefCommit_valid (publishedFirst check cs st name recA).refs name (vrecAddr recB) []
    0 0 hn (validHash_vrecAddr recB)
  have h5 := @PublishStep.commit check cs name _ _
    ⟨⟨st', (publishedFirst check cs st name recA).refs⟩, [(vrecAddr recA, candA)], Function.update (Function.update
      (Function.update (fun _ : Bool => .idle) false (.read c)) false (.checked c)) false
      (.stored c (vrecAddr recB))⟩ false c _ 0 0 refs rfl hcommit
  simp only [Function.update_idem] at h3 h4 h5
  rw [show Function.update (fun _ : Bool => Publisher.idle) false .idle = fun _ => .idle from
    Function.update_eq_self false _] at h5
  have hbegin := (Relation.ReflTransGen.single ⟨_, h1, trivial⟩).trans h2
  exact ⟨_, ((hbegin.tail ⟨_, h3, trivial⟩).tail ⟨_, h4, trivial⟩).tail ⟨_, h5, trivial⟩⟩

end

/-- No record succeeds itself. -/
theorem not_succeeds_self (addr : Bytes) (r : Vrec) : ¬ Succeeds (addr, r) (addr, r) := by
  intro h
  have hseq := ((casVrecSucceeds_iff r addr r).mp h).seq
  omega

/-- Two publishers of a new topic. -/
def twoPublishers : PublishWorld Bool := ⟨⟨Store.empty, none⟩, [], fun _ => .idle⟩

theorem publishStart_two : PublishStart anySig [] topicT twoPublishers := ⟨fun _ => rfl, .inl ⟨rfl, rfl⟩⟩

/-- One of them publishes. -/
theorem publishers_chain_one : ∃ w' cand, PublishRun anySig [] topicT (RefAsRead topicT) twoPublishers w' ∧
    w'.heads = [(vrecAddr firstRec, cand)] ∧ w'.heads.IsChain Succeeds := by
  obtain ⟨cand, hd, -⟩ := firstRec_decodes
  have hrun : PublishRun anySig [] topicT (RefAsRead topicT) twoPublishers
      ⟨publishedFirst anySig [] Store.empty topicT firstRec, [(vrecAddr firstRec, cand)], fun _ => .idle⟩ := by
    refine publish_first anySig [] topicT Store.empty (by decide) (RefAsRead topicT) (fun _ => trivial) ?_ _ false rfl
      firstRec cand hd (fresh_empty _)
    intro st c hc
    unfold RefAsRead
    simp only [hc]
    rfl
  exact ⟨_, cand, hrun, rfl, (publishers_chain anySig [] topicT _ _ publishStart_two hrun).1⟩

/-- Both publish a first record, and the second does not succeed the head it replaces. -/
theorem two_publishers_no_chain : PublishStart anySig [] topicT twoPublishers ∧
    ∃ w', PublishRun anySig [] topicT (fun _ _ => True) twoPublishers w' ∧ ¬ w'.heads.IsChain Succeeds := by
  obtain ⟨cand, hd, -⟩ := firstRec_decodes
  obtain ⟨ct, hrun⟩ := publish_race anySig [] topicT Store.empty (by decide) firstRec firstRec cand cand hd hd
    (fresh_empty _) (fresh_empty _) (fun _ => rfl)
  refine ⟨publishStart_two, _, hrun, fun hchain => ?_⟩
  exact not_succeeds_self _ _ (List.isChain_pair.mp hchain)

end Smolvfs
